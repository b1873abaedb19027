import MulleObjC.Library.Census
import MulleObjC.Library.Machine

/-!
# The layers of a thread

To run Objective-C code, a thread is registered with the global aba, retains the universe, has a
threadinfo in its thread storage, is registered with the gc of the universe, is counted, has a
pool configuration and is in the thread map. It takes these layers one by one, in `bouncyBounce` or
on demand, and peels them one by one, before it lets go of the universe. The release of the last
reference tears the universe down, and the global aba with it.
-/

namespace MulleObjC.NSThread.Universethread

open Machine

/-- What a thread calls, one step each. -/
inductive Op
  /-- `mulle_aba_register` -/
  | abaRegister
  /-- `mulle_aba_unregister` -/
  | abaUnregister
  /-- `_mulle_objc_universe_retain` -/
  | universeRetain
  /-- `_mulle_objc_universe_release` -/
  | universeRelease
  /-- `mulle_objc_thread_setup_threadinfo` -/
  | setupThreadinfo
  /-- `mulle_objc_thread_unset_threadinfo` -/
  | unsetThreadinfo
  /-- `mulle_thread_tss_set( threadkey, info)` -/
  | setThreadkey
  /-- `mulle_thread_tss_set( threadkey, NULL)` -/
  | clearThreadkey
  /-- `_mulle_objc_thread_register_universe_gc` -/
  | registerUniverseGC
  /-- `_mulle_objc_thread_remove_universe_gc` -/
  | removeUniverseGC
  /-- `_mulle_atomic_pointer_increment( &info->thread.n_threads)` -/
  | incrementThreads
  /-- `_mulle_atomic_pointer_decrement( &info->thread.n_threads)` -/
  | decrementThreads
  /-- `mulle_objc_thread_new_poolconfiguration` -/
  | newPoolconfiguration
  /-- `mulle_objc_thread_reset_poolconfiguration` -/
  | resetPoolconfiguration
  /-- `mulle_objc_thread_done_poolconfiguration` -/
  | donePoolconfiguration
  /-- `_mulle_objc_universe_set_threadobject_for_thread_id` -/
  | setThreadobjectForThreadId
  /-- `_mulle_objc_universe_remove_threadobject_for_thread_id` -/
  | removeThreadobjectForThreadId
  /-- `_mulle_objc_thread_set_threadobject( universe, self)` -/
  | setThreadobject
  /-- `_mulle_objc_thread_set_threadobject( universe, NULL)` -/
  | clearThreadobject
  /-- `[threadObject mullePerformFinalize]` -/
  | performFinalize
  /-- `[threadObject release]` -/
  | releaseThreadObject
  deriving DecidableEq

/-- `_mulle_objc_thread_become_universethread` -/
def becomeUniversethread : List Op :=
  [.universeRetain, .setupThreadinfo, .registerUniverseGC, .incrementThreads]

/-- `_mulle_objc_thread_resignas_universethread` -/
def resignasUniversethread : List Op := [.removeUniverseGC, .decrementThreads]

/-- `_MulleThreadRegisterInUniverse` -/
def registerInUniverse : List Op := [.setThreadobjectForThreadId, .setThreadobject]

/-- `_MulleThreadDeregisterInUniverse` -/
def deregisterInUniverse : List Op := [.removeThreadobjectForThreadId, .clearThreadobject]

/-- `_MulleThreadTakedownPoolAndRelease` -/
def takedownPoolAndRelease : List Op :=
  [.performFinalize, .resetPoolconfiguration] ++ deregisterInUniverse ++
    [.releaseThreadObject, .donePoolconfiguration]

/-- The functions that take and peel layers. -/
inductive Program
  /-- `bouncyBounce`, up to `[self main]` -/
  | bouncyBounce
  /-- `_MulleThreadCreateThreadObjectInUniverse` -/
  | createThreadObject
  /-- `_MulleThreadRemoveThreadObjectFromUniverse` -/
  | removeThreadObject
  /-- `_mulle_objc_threadinfo_destructor`, of a threadinfo with a thread object -/
  | destructor
  deriving DecidableEq

/-- What a function calls. -/
def Program.code : Program → List Op
  | .bouncyBounce =>
    [.abaRegister] ++ becomeUniversethread ++ [.newPoolconfiguration] ++ registerInUniverse ++
      -- the caller will have retained it on our behalf already once
      [.universeRelease]
  | .createThreadObject =>
    [.abaRegister] ++ becomeUniversethread ++ [.newPoolconfiguration] ++ registerInUniverse
  | .removeThreadObject =>
    takedownPoolAndRelease ++ resignasUniversethread ++
      [.unsetThreadinfo, .abaUnregister, .universeRelease]
  | .destructor =>
    [.setThreadkey] ++ takedownPoolAndRelease ++ resignasUniversethread ++
      [.abaUnregister, .universeRelease, .clearThreadkey]

/-- The layers that belong to the thread itself. -/
structure Layers where
  aba : Bool
  threadinfo : Bool
  universeGC : Bool
  poolconfiguration : Bool
  /-- It is in the thread map of the universe. -/
  threads : Bool
  threadobject : Bool
  deriving DecidableEq

/-- No layer. -/
def Layers.none : Layers := ⟨false, false, false, false, false, false⟩

/-- All layers. -/
def Layers.all : Layers := ⟨true, true, true, true, true, true⟩

/-- What a call does to the layers. -/
def Op.apply (l : Layers) : Op → Layers
  | .abaRegister => { l with aba := true }
  | .abaUnregister => { l with aba := false }
  | .setupThreadinfo | .setThreadkey => { l with threadinfo := true }
  | .unsetThreadinfo | .clearThreadkey => { l with threadinfo := false }
  | .registerUniverseGC => { l with universeGC := true }
  | .removeUniverseGC => { l with universeGC := false }
  | .newPoolconfiguration => { l with poolconfiguration := true }
  | .donePoolconfiguration => { l with poolconfiguration := false }
  | .setThreadobjectForThreadId => { l with threads := true }
  | .removeThreadobjectForThreadId => { l with threads := false }
  | .setThreadobject => { l with threadobject := true }
  | .clearThreadobject => { l with threadobject := false }
  | _ => l

/-- What a call finds in place, by its assertions and by what it uses. -/
def Op.finds (l : Layers) : Op → Bool
  | .abaRegister => !l.aba
  | .abaUnregister => l.aba && !l.universeGC
  | .setupThreadinfo | .setThreadkey => !l.threadinfo
  | .registerUniverseGC => l.aba && !l.universeGC
  | .removeUniverseGC => l.aba && l.universeGC
  | .newPoolconfiguration => l.threadinfo && !l.poolconfiguration
  | .resetPoolconfiguration | .donePoolconfiguration => l.threadinfo && l.poolconfiguration
  | .setThreadobjectForThreadId => !l.threads
  | .removeThreadobjectForThreadId => l.threads
  | .setThreadobject | .clearThreadobject => l.threadinfo
  -- the finalizers and the `-dealloc`s autorelease
  | .performFinalize => l.threadinfo && l.poolconfiguration && l.threadobject
  | .releaseThreadObject => l.threadinfo && l.poolconfiguration
  | .unsetThreadinfo => l.threadinfo && !l.poolconfiguration && !l.threadobject
  | .clearThreadkey => l.threadinfo
  | .universeRetain | .universeRelease | .incrementThreads | .decrementThreads => true

/-- The key is the one call that neither uses the universe nor the global aba. -/
def Op.usesUniverse : Op → Bool
  | .clearThreadkey => false
  | _ => true

/-- Where a thread is. -/
inductive Position
  /-- It has no thread object. It may not exist, and its thread id may be used again. -/
  | outside
  /-- `-mulleStart` has retained the universe for it, in front of `mulle_thread_create`. -/
  | starting
  /-- In front of a call of a function. -/
  | running (program : Program) (pc : ℕ)
  /-- It runs Objective-C code. -/
  | inside
  deriving DecidableEq

/-- The next call. -/
def Position.next? : Position → Option Op
  | .running program pc => program.code[pc]?
  | _ => none

/-- Where a thread is when a function returns. -/
def Program.behind : Program → Position
  | .bouncyBounce | .createThreadObject => .inside
  | .removeThreadObject | .destructor => .outside

/-- Where a thread is behind a call. -/
def Program.goOn (program : Program) (pc : ℕ) : Position :=
  if pc + 1 < program.code.length then .running program (pc + 1) else program.behind

/-- The universe and the threads, other than the main thread. -/
structure State (Thread : Type*) where
  /-- The references to the universe. -/
  references : ℕ
  nThreads : ℕ
  /-- The main thread has not released the universe. -/
  mainHolds : Bool
  /-- The universe is gone, and the global aba. -/
  tornDown : Bool
  layers : Thread → Layers
  position : Thread → Position

/-- What is done next. -/
inductive Act (Thread : Type*)
  /-- `-mulleStart` retains the universe. It is called by a thread, or by the main thread. -/
  | start (caller : Option Thread) (t : Thread)
  /-- `mulle_thread_create`. If it fails, the universe is released. -/
  | create (t : Thread) (succeeds : Bool)
  /-- `MulleThreadGetOrCreateCurrentThread`, by a thread without a thread object -/
  | getOrCreate (t : Thread)
  /-- `_MulleThreadRemoveThreadObjectFromUniverse` -/
  | remove (t : Thread)
  /-- The thread exits, and the destructor of its thread storage is called. -/
  | exit (t : Thread)
  /-- The next call of a function. -/
  | proceed (t : Thread)
  /-- The main thread releases the universe. -/
  | releaseMain

/-- What is reported. -/
inductive Event (Thread : Type*)
  /-- A call did not find what it needs, or the universe was gone. -/
  | misused (t : Thread) (op : Op)
  | tornDown
  deriving DecidableEq

variable {Thread : Type*} [DecidableEq Thread]

namespace State

/-- The main thread has loaded the class. -/
def init (Thread : Type*) : State Thread := ⟨1, 0, true, false, fun _ => .none, fun _ => .outside⟩

/-- A thread goes on. -/
def goto (s : State Thread) (t : Thread) (position : Position) : State Thread :=
  { s with position := Function.update s.position t position }

/-- `_mulle_objc_universe_release`, which tears the universe down with the last reference. -/
def release (s : State Thread) : List (Event Thread) × State Thread :=
  if s.references = 1 then ([.tornDown], { s with references := 0, tornDown := true })
  else ([], { s with references := s.references - 1 })

/-- A call. -/
def perform (s : State Thread) : Op → List (Event Thread) × State Thread
  | .universeRetain => ([], { s with references := s.references + 1 })
  | .universeRelease => s.release
  | .incrementThreads => ([], { s with nThreads := s.nThreads + 1 })
  | .decrementThreads => ([], { s with nThreads := s.nThreads - 1 })
  | _ => ([], s)

/-- The report of a call that goes wrong. -/
def misuse (s : State Thread) (t : Thread) (op : Op) : List (Event Thread) :=
  if op.finds (s.layers t) && !(op.usesUniverse && s.tornDown) then [] else [.misused t op]

/-- The caller of `-mulleStart` runs Objective-C code. -/
def mayStart (s : State Thread) : Option Thread → Bool
  | none => s.mainHolds
  | some caller => s.position caller = .inside

/-- One step. -/
def step (s : State Thread) : Act Thread → Option (List (Event Thread) × State Thread)
  | .start caller t =>
    if s.mayStart caller && s.position t = .outside then
      some ([], { s with references := s.references + 1 }.goto t .starting)
    else none
  | .create t succeeds =>
    if s.position t = .starting then
      if succeeds then some ([], s.goto t (.running .bouncyBounce 0))
      else some (s.release.1, s.release.2.goto t .outside)
    else none
  | .getOrCreate t =>
    if s.position t = .outside then some ([], s.goto t (.running .createThreadObject 0)) else none
  | .remove t =>
    if s.position t = .inside then some ([], s.goto t (.running .removeThreadObject 0)) else none
  | .exit t =>
    if s.position t = .inside then
      -- the key is cleared when the destructor is called
      let layers := { s.layers t with threadinfo := false }
      some ([], { s with layers := Function.update s.layers t layers }.goto t
        (.running .destructor 0))
    else none
  | .proceed t =>
    match s.position t with
    | .running program pc =>
      match program.code[pc]? with
      | some op =>
        some (s.misuse t op ++ (s.perform op).1,
          { (s.perform op).2 with
            layers := Function.update s.layers t (op.apply (s.layers t)) }.goto t
              (program.goOn pc))
      | none => none
    | _ => none
  | .releaseMain =>
    if s.mainHolds then some ({ s with mainHolds := false }.release) else none

/-- The step gives a reference to the universe back. -/
def gives (s : State Thread) : Act Thread → Bool
  | .create _ succeeds => !succeeds
  | .proceed t => (s.position t).next? = some .universeRelease
  | .releaseMain => true
  | _ => false

/-- The step starts with a universe that the thread has no reference to. -/
def enters : Act Thread → Bool
  | .getOrCreate _ => true
  | _ => false

end State

/-- The thread has been found without a thread object, and has not retained the universe yet. -/
def Position.entering (position : Position) : Bool :=
  position = .running .createThreadObject 0 || position = .running .createThreadObject 1

theorem release_goto (s : State Thread) (t : Thread) (position : Position) :
    (s.goto t position).release = (s.release.1, s.release.2.goto t position) := by
  by_cases hlast : s.references = 1
  · simp [State.release, State.goto, hlast]
  · simp [State.release, State.goto, hlast]

omit [DecidableEq Thread] in
theorem release_layers (s : State Thread) (layers : Thread → Layers) :
    { s with layers := layers }.release = (s.release.1, { s.release.2 with layers := layers }) := by
  by_cases hlast : s.references = 1
  · simp [State.release, hlast]
  · simp [State.release, hlast]

/-- What a thread has taken and not given back. -/
structure Taken where
  layers : Layers
  /-- The references to the universe, with that of `-mulleStart`. -/
  references : ℕ
  /-- Its part of `n_threads`. -/
  counted : ℕ
  deriving DecidableEq

/-- What a call takes or gives back. -/
def Op.take (taken : Taken) (op : Op) : Taken where
  layers := op.apply taken.layers
  references :=
    match op with
    | .universeRetain => taken.references + 1
    | .universeRelease => taken.references - 1
    | _ => taken.references
  counted :=
    match op with
    | .incrementThreads => taken.counted + 1
    | .decrementThreads => taken.counted - 1
    | _ => taken.counted

/-- What a thread has when a function is called. -/
def Program.start : Program → Taken
  | .bouncyBounce => ⟨.none, 1, 0⟩
  | .createThreadObject => ⟨.none, 0, 0⟩
  | .removeThreadObject => ⟨.all, 1, 1⟩
  | .destructor => ⟨{ Layers.all with threadinfo := false }, 1, 1⟩

/-- What a thread has where it is. -/
def Position.taken : Position → Taken
  | .outside => ⟨.none, 0, 0⟩
  | .starting => ⟨.none, 1, 0⟩
  | .running program pc => (program.code.take pc).foldl Op.take program.start
  | .inside => ⟨.all, 1, 1⟩

/-- No thread enters on demand when the universe is gone, and the last reference is not given back
while a thread is entering. -/
def Covered (s : State Thread) (a : Act Thread) : Prop :=
  (State.enters a = true → s.tornDown = false) ∧
    (s.references = 1 → s.gives a = true → ∀ t, (s.position t).entering = false)

/-- A function that is running has a next call. -/
def Position.Valid : Position → Prop
  | .running program pc => pc < program.code.length
  | _ => True

section Program

variable {program : Program} {pc : ℕ} {op : Op}

theorem taken_goOn (h : program.code[pc]? = some op) :
    (program.goOn pc).taken = op.take (Position.running program pc).taken := by
  obtain ⟨hlt, hop⟩ := List.getElem?_eq_some_iff.mp h
  have hstep : (program.code.take (pc + 1)).foldl Op.take program.start =
      op.take (Position.running program pc).taken := by
    rw [← List.take_concat_get hlt, hop, List.concat_eq_append, List.foldl_append]
    rfl
  rw [← hstep, Program.goOn]
  split
  next => rfl
  next hlast =>
    rw [List.take_of_length_le (by omega)]
    cases program <;> rfl

theorem valid_goOn : (program.goOn pc).Valid := by
  rw [Program.goOn]
  split
  next hlt => exact hlt
  next => cases program <;> trivial

/-- What is checked for every call of a function. -/
def Program.sound (program : Program) : Bool :=
  (List.range program.code.length).all fun pc =>
    let taken := (Position.running program pc).taken
    (program.code[pc]?).all fun op =>
      op.finds taken.layers &&
        (!op.usesUniverse || decide (0 < taken.references) ||
          (Position.running program pc).entering) &&
        (op != .universeRelease || decide (0 < taken.references)) &&
        (op != .decrementThreads || decide (0 < taken.counted)) &&
        (!(program.goOn pc).entering || (Position.running program pc).entering)

theorem valid_zero : (Position.running program 0).Valid := by
  change 0 < program.code.length
  cases program <;> decide

theorem sound (program : Program) : program.sound = true := by
  cases program <;> decide

theorem sound_call (h : program.code[pc]? = some op) :
    op.finds (Position.running program pc).taken.layers = true ∧
      (op.usesUniverse = true → 0 < (Position.running program pc).taken.references ∨
        (Position.running program pc).entering = true) ∧
      (op = .universeRelease → 0 < (Position.running program pc).taken.references) ∧
      (op = .decrementThreads → 0 < (Position.running program pc).taken.counted) ∧
      ((Position.running program pc).entering = false → (program.goOn pc).entering = false) := by
  have hsound := sound program
  rw [Program.sound, List.all_eq_true] at hsound
  have hpc := hsound pc (List.mem_range.mpr (List.getElem?_eq_some_iff.mp h).1)
  simp only [h, Option.all_some, Bool.and_eq_true, Bool.or_eq_true, Bool.not_eq_true',
    decide_eq_true_eq, bne_iff_ne] at hpc
  obtain ⟨⟨⟨⟨hfinds, huses⟩, hrelease⟩, hdecrement⟩, hentering⟩ := hpc
  refine ⟨hfinds, fun hop => ?_, fun hop => hrelease.resolve_left (not_not.mpr hop),
    fun hop => hdecrement.resolve_left (not_not.mpr hop), fun hnot => hentering.resolve_right ?_⟩
  · rcases huses with (hnot | hreferences) | hat
    · rw [hop] at hnot
      cases hnot
    · exact .inl hreferences
    · exact .inr hat
  · rw [hnot]
    exact Bool.false_ne_true

/-- A thread that has given its reference back, and is not entering, is done with the universe. -/
theorem done_of_references {position : Position} (hvalid : position.Valid)
    (hreferences : position.taken.references = 0) (hentering : position.entering = false) :
    position = .outside ∨ position.next? = some .clearThreadkey := by
  cases position with
  | outside => exact .inl rfl
  | starting => cases hreferences
  | inside => cases hreferences
  | running program pc =>
    obtain ⟨op, hop⟩ : ∃ op, program.code[pc]? = some op :=
      ⟨_, List.getElem?_eq_getElem (show pc < program.code.length from hvalid)⟩
    have huses := (sound_call hop).2.1
    rw [hreferences, hentering] at huses
    right
    by_contra hother
    apply absurd (huses ?_) (by simp)
    cases op with
    | clearThreadkey => exact absurd hop hother
    | _ => rfl

end Program

/-- The invariant. There are as many references as the main thread and the threads have, and spare
ones that are about to be given back. -/
structure Balanced [Fintype Thread] (spare : ℕ) (es : List (Event Thread)) (s : State Thread) :
    Prop where
  layers : ∀ t, s.layers t = (s.position t).taken.layers
  valid : ∀ t, (s.position t).Valid
  references : s.references = s.mainHolds.toNat + spare +
    Census.total (fun p : Position => p.taken.references) s.position
  nThreads : s.nThreads = Census.total (fun p : Position => p.taken.counted) s.position
  unmisused : ∀ t op, .misused t op ∉ es
  count : es.count .tornDown = s.tornDown.toNat
  tornDown : s.tornDown = true ↔ s.references = 0
  closed : s.tornDown = true → ∀ t, (s.position t).entering = false

variable [Fintype Thread] {spare : ℕ} {es fs : List (Event Thread)} {s s' : State Thread}
  {t : Thread} {a : Act Thread}

omit [Fintype Thread] in
theorem entering_goto {position : Position} (hall : ∀ u, (s.position u).entering = false)
    (hposition : position.entering = false) (u : Thread) :
    ((s.goto t position).position u).entering = false := by
  rcases eq_or_ne u t with rfl | hu
  · simp only [State.goto, Function.update_self]
    exact hposition
  · simp only [State.goto, Function.update_of_ne hu]
    exact hall u

namespace Balanced

theorem init : Balanced 0 [] (State.init Thread) where
  layers _ := rfl
  valid _ := trivial
  references := by simp [State.init, Census.total, Position.taken]
  nThreads := ((Census.total_eq_zero_iff _ _).mpr fun _ => rfl).symm
  unmisused _ _ := List.not_mem_nil
  count := rfl
  tornDown := by simp [State.init]
  closed _ _ := rfl

/-- A thread that has a reference keeps the universe up. -/
theorem alive (h : Balanced spare es s) (hreferences : 0 < (s.position t).taken.references) :
    s.tornDown = false := by
  by_contra htorn
  have hzero := h.tornDown.mp (eq_true_of_ne_false htorn)
  have hle := Census.le_total (fun p : Position => p.taken.references) s.position t
  rw [h.references] at hzero
  omega

/-- A thread goes on, with the references and the count that go with it. -/
theorem move (spare' references nThreads : ℕ) {layers : Layers} {position : Position}
    (h : Balanced spare es s) (hlayers : layers = position.taken.layers) (hvalid : position.Valid)
    (hreferences : references + (s.position t).taken.references + spare =
      s.references + position.taken.references + spare')
    (hnThreads : nThreads + (s.position t).taken.counted =
      s.nThreads + position.taken.counted)
    (htornDown : s.tornDown = true ↔ references = 0)
    (hentering : s.tornDown = true → position.entering = false) :
    Balanced spare' es ({ s with
      references := references
      nThreads := nThreads
      layers := Function.update s.layers t layers }.goto t position) where
  layers u := by
    rcases eq_or_ne u t with rfl | hu
    · simp only [State.goto, Function.update_self]
      exact hlayers
    · simp only [State.goto, Function.update_of_ne hu]
      exact h.layers u
  valid u := by
    rcases eq_or_ne u t with rfl | hu
    · simp only [State.goto, Function.update_self]
      exact hvalid
    · simp only [State.goto, Function.update_of_ne hu]
      exact h.valid u
  references := by
    have htotal := Census.total_update (fun p : Position => p.taken.references) s.position t position
    have hold := h.references
    simp only [State.goto]
    omega
  nThreads := by
    have htotal := Census.total_update (fun p : Position => p.taken.counted) s.position t position
    have hold := h.nThreads
    simp only [State.goto]
    omega
  unmisused := h.unmisused
  count := h.count
  tornDown := htornDown
  closed htorn := entering_goto (h.closed htorn) (hentering htorn)

/-- A thread goes on, and keeps what it has. -/
theorem goto {position : Position} (h : Balanced spare es s)
    (htaken : position.taken = (s.position t).taken) (hvalid : position.Valid)
    (hentering : s.tornDown = true → position.entering = false) :
    Balanced spare es (s.goto t position) := by
  have hlayers : s.layers t = position.taken.layers := by rw [htaken, h.layers t]
  have hmove := h.move spare s.references s.nThreads hlayers hvalid (by rw [htaken])
    (by rw [htaken]) h.tornDown hentering
  rwa [Function.update_eq_self] at hmove

/-- A reference is given back. -/
theorem release (h : Balanced 1 es s)
    (hcovered : s.references = 1 → ∀ t, (s.position t).entering = false) :
    Balanced 0 (es ++ s.release.1) s.release.2 := by
  have hreferences := h.references
  have htornDown : s.tornDown = false := by
    by_contra htorn
    have hzero := h.tornDown.mp (eq_true_of_ne_false htorn)
    omega
  have hcount := h.count
  rw [htornDown] at hcount
  by_cases hlast : s.references = 1
  · rw [State.release, if_pos hlast]
    exact {
      layers := h.layers
      valid := h.valid
      references := by
        change 0 = s.mainHolds.toNat + 0 + Census.total _ s.position
        omega
      nThreads := h.nThreads
      unmisused := fun t op hmem => by
        rcases List.mem_append.mp hmem with hes | hnew
        · exact h.unmisused t op hes
        · cases List.mem_singleton.mp hnew
      count := by
        rw [List.count_append, hcount]
        rfl
      tornDown := iff_of_true rfl rfl
      closed := fun _ => hcovered hlast }
  · rw [State.release, if_neg hlast, List.append_nil]
    exact {
      layers := h.layers
      valid := h.valid
      references := by
        change s.references - 1 = s.mainHolds.toNat + 0 + Census.total _ s.position
        omega
      nThreads := h.nThreads
      unmisused := h.unmisused
      count := by
        rw [hcount, htornDown]
      tornDown := by
        change s.tornDown = true ↔ s.references - 1 = 0
        rw [htornDown]
        simp only [Bool.false_eq_true, false_iff]
        omega
      closed := h.closed }

/-- A call is not misused, and the thread goes on with what it takes or gives back. -/
theorem proceed {program : Program} {pc : ℕ} {op : Op} (h : Balanced 0 es s)
    (hposition : s.position t = .running program pc) (hop : program.code[pc]? = some op)
    (hcovered : s.references = 1 → op = .universeRelease →
      ∀ t, (s.position t).entering = false) :
    Balanced 0 (es ++ (s.misuse t op ++ (s.perform op).1)) ({ (s.perform op).2 with
      layers := Function.update s.layers t (op.apply (s.layers t)) }.goto t (program.goOn pc)) := by
  obtain ⟨hfinds, huses, hrelease, hdecrement, hentering⟩ := sound_call hop
  rw [← hposition] at hfinds huses hrelease hdecrement hentering
  have hgoOn := taken_goOn hop
  rw [← hposition] at hgoOn
  have hlayers : op.apply (s.layers t) = (program.goOn pc).taken.layers := by
    rw [h.layers t, hgoOn]
    rfl
  have hup : op.usesUniverse = true → s.tornDown = false := by
    intro hop
    rcases huses hop with hreferences | hat
    · exact h.alive hreferences
    · by_contra htorn
      have hnot := h.closed (eq_true_of_ne_false htorn) t
      rw [hat] at hnot
      cases hnot
  have hmisuse : s.misuse t op = [] := by
    rw [State.misuse, h.layers t, hfinds]
    cases hop : op.usesUniverse with
    | false => rfl
    | true =>
      rw [hup hop]
      rfl
  have hclosed : s.tornDown = true → (program.goOn pc).entering = false :=
    fun htorn => hentering (h.closed htorn t)
  rw [hmisuse, List.nil_append]
  cases op with
  | universeRetain =>
    rw [State.perform, List.append_nil]
    apply h.move 0 (s.references + 1) s.nThreads hlayers valid_goOn
    · rw [hgoOn]
      change _ = _ + ((s.position t).taken.references + 1) + 0
      omega
    · rw [hgoOn]
      rfl
    · simp [hup rfl]
    · exact hclosed
  | universeRelease =>
    have hpositive := hrelease rfl
    have hmove : Balanced 1 es ({ s with
        layers := Function.update s.layers t (Op.universeRelease.apply (s.layers t)) }.goto t
          (program.goOn pc)) := by
      apply h.move 1 s.references s.nThreads hlayers valid_goOn
      · rw [hgoOn]
        change _ = _ + ((s.position t).taken.references - 1) + 1
        omega
      · rw [hgoOn]
        rfl
      · exact h.tornDown
      · exact hclosed
    have hlast := hmove.release fun hreferences =>
      entering_goto (hcovered hreferences rfl) (hentering (hcovered hreferences rfl t))
    rwa [release_goto, release_layers] at hlast
  | incrementThreads =>
    rw [State.perform, List.append_nil]
    apply h.move 0 s.references (s.nThreads + 1) hlayers valid_goOn
    · rw [hgoOn]
      rfl
    · rw [hgoOn]
      change _ = _ + ((s.position t).taken.counted + 1)
      omega
    · exact h.tornDown
    · exact hclosed
  | decrementThreads =>
    have hpositive := hdecrement rfl
    have hle := Census.le_total (fun p : Position => p.taken.counted) s.position t
    have hnThreads := h.nThreads
    rw [State.perform, List.append_nil]
    apply h.move 0 s.references (s.nThreads - 1) hlayers valid_goOn
    · rw [hgoOn]
      rfl
    · rw [hgoOn]
      change _ = _ + ((s.position t).taken.counted - 1)
      omega
    · exact h.tornDown
    · exact hclosed
  | _ =>
    change Balanced 0 (es ++ []) _
    rw [List.append_nil]
    apply h.move 0 s.references s.nThreads hlayers valid_goOn
    · rw [hgoOn]
      rfl
    · rw [hgoOn]
      rfl
    · exact h.tornDown
    · exact hclosed

/-- What one step preserves. -/
theorem step (h : Balanced 0 es s) (hcovered : Covered s a) (hstep : s.step a = some (fs, s')) :
    Balanced 0 (es ++ fs) s' := by
  obtain ⟨henters, hgives⟩ := hcovered
  cases a with
  | start caller t =>
    obtain ⟨hmay, hr⟩ := Option.ite_none_right_eq_some.mp hstep
    obtain ⟨rfl, rfl⟩ := Prod.mk.inj (Option.some.inj hr)
    rw [Bool.and_eq_true, decide_eq_true_eq] at hmay
    obtain ⟨hcaller, hposition⟩ := hmay
    have htornDown : s.tornDown = false := by
      cases caller with
      | none =>
        have hmain : s.mainHolds = true := hcaller
        have hreferences := h.references
        rw [hmain, Bool.toNat_true] at hreferences
        by_contra htorn
        have hzero := h.tornDown.mp (eq_true_of_ne_false htorn)
        omega
      | some caller =>
        have hinside : s.position caller = .inside := of_decide_eq_true hcaller
        apply h.alive (t := caller)
        rw [hinside]
        exact Nat.one_pos
    rw [List.append_nil]
    have hlayers : s.layers t = Position.starting.taken.layers := by
      rw [h.layers t, hposition]
      rfl
    have hmove := h.move 0 (s.references + 1) s.nThreads hlayers trivial (by rw [hposition]; rfl)
      (by rw [hposition]; rfl) (by simp [htornDown]) (fun _ => rfl)
    rwa [Function.update_eq_self] at hmove
  | create t succeeds =>
    obtain ⟨hposition, hr⟩ := Option.ite_none_right_eq_some.mp hstep
    have htaken : (s.position t).taken = ⟨.none, 1, 0⟩ := by
      rw [hposition]
      rfl
    cases succeeds with
    | true =>
      obtain ⟨rfl, rfl⟩ := Prod.mk.inj (Option.some.inj hr)
      rw [List.append_nil]
      exact h.goto htaken.symm valid_zero (fun _ => rfl)
    | false =>
      obtain ⟨rfl, rfl⟩ := Prod.mk.inj (Option.some.inj hr)
      have hlayers : s.layers t = Position.outside.taken.layers := by
        rw [h.layers t, htaken]
        rfl
      have hmove := h.move 1 s.references s.nThreads hlayers trivial (by rw [htaken]; rfl)
        (by rw [htaken]; rfl) h.tornDown (fun _ => rfl)
      rw [Function.update_eq_self] at hmove
      have hrelease := hmove.release fun hreferences => entering_goto (hgives hreferences rfl) rfl
      change Balanced 0 (es ++ (s.goto t .outside).release.1) (s.goto t .outside).release.2 at hrelease
      rwa [release_goto] at hrelease
  | getOrCreate t =>
    obtain ⟨hposition, hr⟩ := Option.ite_none_right_eq_some.mp hstep
    obtain ⟨rfl, rfl⟩ := Prod.mk.inj (Option.some.inj hr)
    rw [List.append_nil]
    apply h.goto
    · rw [hposition]
      rfl
    · exact valid_zero
    · intro htorn
      rw [henters rfl] at htorn
      cases htorn
  | remove t =>
    obtain ⟨hposition, hr⟩ := Option.ite_none_right_eq_some.mp hstep
    obtain ⟨rfl, rfl⟩ := Prod.mk.inj (Option.some.inj hr)
    rw [List.append_nil]
    apply h.goto
    · rw [hposition]
      rfl
    · exact valid_zero
    · exact fun _ => rfl
  | exit t =>
    obtain ⟨hposition, hr⟩ := Option.ite_none_right_eq_some.mp hstep
    obtain ⟨rfl, rfl⟩ := Prod.mk.inj (Option.some.inj hr)
    rw [List.append_nil]
    apply h.move 0 s.references s.nThreads
    · rw [h.layers t, hposition]
      rfl
    · exact valid_zero
    · rw [hposition]
      rfl
    · rw [hposition]
      rfl
    · exact h.tornDown
    · exact fun _ => rfl
  | proceed t =>
    unfold State.step at hstep
    dsimp only at hstep
    split at hstep
    next program pc hposition =>
      split at hstep
      next op hop =>
        obtain ⟨rfl, rfl⟩ := Prod.mk.inj (Option.some.inj hstep)
        refine h.proceed hposition hop fun hreferences hrelease => hgives hreferences ?_
        simp only [State.gives, Position.next?, hposition, hop, hrelease]
        rfl
      next => cases hstep
    next => cases hstep
  | releaseMain =>
    obtain ⟨hmain, hr⟩ := Option.ite_none_right_eq_some.mp hstep
    obtain ⟨rfl, rfl⟩ := Prod.mk.inj (Option.some.inj hr)
    have hspare : Balanced 1 es { s with mainHolds := false } := {
      layers := h.layers
      valid := h.valid
      references := by
        rw [h.references, hmain]
        rfl
      nThreads := h.nThreads
      unmisused := h.unmisused
      count := h.count
      tornDown := h.tornDown
      closed := h.closed }
    exact hspare.release fun hreferences => hgives hreferences rfl

end Balanced

/-- The references and the counter are those of the threads, no call is misused, and the universe
is torn down once, with its last reference, when no thread uses it any more. -/
structure Peels (es : List (Event Thread)) (s : State Thread) : Prop where
  layers : ∀ t, s.layers t = (s.position t).taken.layers
  references : s.references =
    s.mainHolds.toNat + Census.total (fun p : Position => p.taken.references) s.position
  nThreads : s.nThreads = Census.total (fun p : Position => p.taken.counted) s.position
  unmisused : ∀ t op, .misused t op ∉ es
  tornDown : es.count .tornDown = if s.references = 0 then 1 else 0
  done : s.references = 0 →
    ∀ t, s.position t = .outside ∨ (s.position t).next? = some .clearThreadkey

/-- Threads take and peel their layers in any order of steps, as many threads as there are. -/
theorem peels_of_run (hrun : RunWhile State.step Covered (State.init Thread) es s) :
    Peels es s := by
  have h : Balanced 0 es s :=
    hrun.invariant_trace (Balanced 0) (fun hcovered hinv hstep => hinv.step hcovered hstep)
      Balanced.init
  have hreferences := h.references
  rw [Nat.add_zero] at hreferences
  refine ⟨h.layers, hreferences, h.nThreads, h.unmisused, ?_, fun hzero t => ?_⟩
  · rw [h.count]
    split
    next hzero => rw [h.tornDown.mpr hzero, Bool.toNat_true]
    next hpositive => rw [eq_false_of_ne_true (mt h.tornDown.mp hpositive), Bool.toNat_false]
  · have htotal : Census.total (fun p : Position => p.taken.references) s.position = 0 := by
      omega
    exact done_of_references (h.valid t) ((Census.total_eq_zero_iff _ _).mp htotal t)
      (h.closed (h.tornDown.mpr hzero) t)

instance (s : State (Fin 2)) (a : Act (Fin 2)) : Decidable (Covered s a) := by
  unfold Covered
  infer_instance

/-- The main thread starts a thread, which fails to start another; that one enters on demand and
exits, with the last reference to the universe. -/
theorem peels_two : ∃ es s, (RunWhile State.step Covered (State.init (Fin 2)) es s ∧
    es = [.tornDown]) ∧ Peels es s := by
  have h : (execWhile State.step Covered (State.init (Fin 2))
      (List.flatten [[.start none 0, .create 0 true], List.replicate 9 (.proceed 0),
        [.start (some 0) 1, .create 1 false, .getOrCreate 1, .remove 0],
        List.replicate 8 (.proceed 1), [.exit 1, .releaseMain],
        List.replicate 11 (.proceed 0), List.replicate 11 (.proceed 1)])).map Prod.fst =
      some [.tornDown] := by decide +kernel
  obtain ⟨⟨es, s⟩, hexec, hes⟩ := Option.map_eq_some_iff.mp h
  have hrun := runWhile_of_execWhile _ hexec
  exact ⟨es, s, ⟨hrun, hes⟩, peels_of_run hrun⟩

end MulleObjC.NSThread.Universethread
