import Mathlib.Data.Fintype.Basic
import MulleObjC.Library.Holdings
import MulleObjC.Library.Machine

/-!
# Atomic object instance variables

An instance variable of type `mulle_atomic_id_t` is updated by several threads. The reference of
the new value is taken before the loop that stores it. Every read and every compare-and-swap of
the instance variable is one step, with what the thread does up to the next one.
-/

namespace MulleObjC.AtomicId

open Machine
open Holdings (count count_update_comp count_eq_zero)

/-- `ivarType` -/
inductive IvarType
  /-- `_C_ASSIGN_ID` -/
  | assign
  /-- `_C_RETAIN_ID` -/
  | retain
  /-- `_C_COPY_ID` -/
  | copy
  deriving DecidableEq, Repr

/-- What happens to references. -/
inductive Event (Obj : Type*)
  /-- An update has got a new reference by `-retain` or `-copy`. -/
  | taken (o : Obj)
  /-- An update has replaced the object in the instance variable. -/
  | replaced (o : Obj)
  | autoreleased (o : Obj)
  /-- The final release has taken the object out of the instance variable. -/
  | emptied (o : Obj)
  | released (o : Obj)
  deriving DecidableEq

/-- Where a thread is. -/
inductive Local (Obj : Type*)
  | idle
  /-- In front of `old = _mulle_atomic_pointer_read( &ivar->pointer)` -/
  | updating (value : Option Obj)
  /-- In front of `_mulle_atomic_pointer_cas( &ivar->pointer, value, old)` -/
  | swapping (value old : Option Obj)
  /-- In front of `value = _mulle_atomic_pointer_read( &ivar->pointer)` -/
  | releasing
  /-- In front of `_mulle_atomic_pointer_cas( &ivar->pointer, NULL, value)` -/
  | emptying (value : Obj)
  deriving DecidableEq

/-- The value that an update is about to store. -/
def Local.value {Obj : Type*} : Local Obj → Option Obj
  | updating value | swapping value _ => value
  | _ => none

/-- The instance variable, and the threads that work on it. -/
structure State (Thread Obj : Type*) where
  ivar : Option Obj
  locals : Thread → Local Obj

/-- What a thread does next. -/
inductive Act (Thread Obj : Type*)
  /-- `_mulle_atomic_id_update`. If it is asked for a copy, `-copy` returns `copied`. -/
  | update (t : Thread) (value copied : Option Obj)
  /-- `_mulle_atomic_id_release` -/
  | release (t : Thread)
  | read (t : Thread)
  | cas (t : Thread)

variable {Thread Obj : Type*} [DecidableEq Thread] [DecidableEq Obj]

/-- `value = mulle_objc_object_call_copy( value)`, or the value itself. -/
def IvarType.stored (ivarType : IvarType) (value copied : Option Obj) : Option Obj :=
  match ivarType with
  | copy => value.bind fun _ => copied
  | assign | retain => value

/-- Events that there are if the instance variable owns its value. -/
def IvarType.owning (ivarType : IvarType) (value : Option Obj) (events : Obj → List (Event Obj)) :
    List (Event Obj) :=
  if ivarType = .assign then [] else value.toList.flatMap events

namespace State

/-- A thread goes on. -/
def goto (s : State Thread Obj) (t : Thread) (l : Local Obj) : State Thread Obj :=
  ⟨s.ivar, Function.update s.locals t l⟩

/-- One step of one thread. -/
def step (ivarType : IvarType) (s : State Thread Obj) :
    Act Thread Obj → Option (List (Event Obj) × State Thread Obj)
  | .update t value copied =>
    if s.locals t = .idle then
      let value := ivarType.stored value copied
      some (ivarType.owning value fun o => [.taken o], s.goto t (.updating value))
    else none
  | .release t =>
    -- Only what owns its value is released in the end.
    if s.locals t = .idle ∧ ivarType ≠ .assign then some ([], s.goto t .releasing) else none
  | .read t =>
    match s.locals t with
    | .updating value =>
      -- can't cas with same value
      if s.ivar = value then some ([], s.goto t .idle)
      else some ([], s.goto t (.swapping value s.ivar))
    | .releasing =>
      match s.ivar with
      | none => some ([], s.goto t .idle)
      | some value => some ([], s.goto t (.emptying value))
    | _ => none
  | .cas t =>
    match s.locals t with
    | .swapping value old =>
      if s.ivar = old then
        some (ivarType.owning old fun o => [.replaced o, .autoreleased o],
          ⟨value, Function.update s.locals t .idle⟩)
      else some ([], s.goto t (.updating value))
    | .emptying value =>
      if s.ivar = some value then
        some ([.emptied value, .released value], ⟨none, Function.update s.locals t .idle⟩)
      else some ([], s.goto t .releasing)
    | _ => none

/-- No thread works on the instance variable. -/
def Quiet (s : State Thread Obj) : Prop := ∀ t, s.locals t = .idle

/-- The references of the instance variable to an object. -/
def held (s : State Thread Obj) (o : Obj) : ℕ := if s.ivar = some o then 1 else 0

/-- The references that updates have taken, and have not stored yet. -/
def inFlight [Fintype Thread] (s : State Thread Obj) (o : Obj) : ℕ :=
  count Finset.univ (fun t => (s.locals t).value) o

end State

/-- From `s` to `s'` every reference is accounted for. -/
structure Accounted [Fintype Thread] (s s' : State Thread Obj) (es : List (Event Obj)) : Prop where
  /-- What was taken is given back, in the instance variable or about to be stored. -/
  references : ∀ o, es.count (.taken o) + s.held o =
    es.count (.autoreleased o) + es.count (.released o) + s'.held o + s'.inFlight o
  /-- What an update replaces is autoreleased once. -/
  autoreleased : ∀ o, es.count (.autoreleased o) = es.count (.replaced o)
  /-- What is taken out in the end is released once. -/
  released : ∀ o, es.count (.released o) = es.count (.emptied o)

/-- The instance variable owns one reference to its value, or none if it is assigned only. -/
def OwnsOne [Fintype Thread] (ivarType : IvarType) (s s' : State Thread Obj)
    (es : List (Event Obj)) : Prop :=
  match ivarType with
  | .assign => es = []
  | .retain | .copy => Accounted s s' es

/-- No update finds the very object that it is to store. -/
def Fresh (ivarType : IvarType) (s : State Thread Obj) : Act Thread Obj → Prop
  | .read t => ivarType ≠ .assign → ∀ o, s.locals t = .updating (some o) → s.ivar ≠ some o
  | _ => True

/-- What a step can do, in the order of the source. -/
inductive Steps (ivarType : IvarType) (s : State Thread Obj) :
    Act Thread Obj → List (Event Obj) → State Thread Obj → Prop
  | update {t : Thread} (value copied : Option Obj) (hl : s.locals t = .idle) :
      Steps ivarType s (.update t value copied)
        (ivarType.owning (ivarType.stored value copied) fun o => [.taken o])
        (s.goto t (.updating (ivarType.stored value copied)))
  | release {t : Thread} (hl : s.locals t = .idle) (hne : ivarType ≠ .assign) :
      Steps ivarType s (.release t) [] (s.goto t .releasing)
  /-- The early return: nothing is stored. -/
  | found {t : Thread} {value : Option Obj} (hl : s.locals t = .updating value)
      (hvalue : s.ivar = value) : Steps ivarType s (.read t) [] (s.goto t .idle)
  | seen {t : Thread} {value : Option Obj} (hl : s.locals t = .updating value)
      (hvalue : s.ivar ≠ value) : Steps ivarType s (.read t) [] (s.goto t (.swapping value s.ivar))
  | empty {t : Thread} (hl : s.locals t = .releasing) :
      Steps ivarType s (.read t) [] (s.goto t .idle)
  | full {t : Thread} {value : Obj} (hl : s.locals t = .releasing) :
      Steps ivarType s (.read t) [] (s.goto t (.emptying value))
  | swapped {t : Thread} {value : Option Obj} (hl : s.locals t = .swapping value s.ivar) :
      Steps ivarType s (.cas t) (ivarType.owning s.ivar fun o => [.replaced o, .autoreleased o])
        ⟨value, Function.update s.locals t .idle⟩
  | retry {t : Thread} {value old : Option Obj} (hl : s.locals t = .swapping value old) :
      Steps ivarType s (.cas t) [] (s.goto t (.updating value))
  | emptied {t : Thread} {value : Obj} (hl : s.locals t = .emptying value)
      (hvalue : s.ivar = some value) : Steps ivarType s (.cas t)
        [.emptied value, .released value] ⟨none, Function.update s.locals t .idle⟩
  | retryRelease {t : Thread} {value : Obj} (hl : s.locals t = .emptying value) :
      Steps ivarType s (.cas t) [] (s.goto t .releasing)

section Step

variable {ivarType : IvarType} {s s' : State Thread Obj} {a : Act Thread Obj}
  {es : List (Event Obj)} {value : Option Obj} {o : Obj}

theorem steps_of_step (h : s.step ivarType a = some (es, s')) : Steps ivarType s a es s' := by
  cases a with
  | update t value copied =>
    rw [State.step] at h
    split at h
    next hl =>
      obtain ⟨rfl, rfl⟩ := Prod.mk.inj (Option.some.inj h)
      exact .update value copied hl
    next => contradiction
  | release t =>
    rw [State.step] at h
    split at h
    next hl =>
      obtain ⟨rfl, rfl⟩ := Prod.mk.inj (Option.some.inj h)
      exact .release hl.1 hl.2
    next => contradiction
  | read t =>
    rw [State.step] at h
    split at h
    next value hl =>
      split at h
      next hvalue =>
        obtain ⟨rfl, rfl⟩ := Prod.mk.inj (Option.some.inj h)
        exact .found hl hvalue
      next hvalue =>
        obtain ⟨rfl, rfl⟩ := Prod.mk.inj (Option.some.inj h)
        exact .seen hl hvalue
    next hl =>
      split at h
      next =>
        obtain ⟨rfl, rfl⟩ := Prod.mk.inj (Option.some.inj h)
        exact .empty hl
      next =>
        obtain ⟨rfl, rfl⟩ := Prod.mk.inj (Option.some.inj h)
        exact .full hl
    next => contradiction
  | cas t =>
    rw [State.step] at h
    split at h
    next value old hl =>
      split at h
      next hold =>
        subst hold
        obtain ⟨rfl, rfl⟩ := Prod.mk.inj (Option.some.inj h)
        exact .swapped hl
      next =>
        obtain ⟨rfl, rfl⟩ := Prod.mk.inj (Option.some.inj h)
        exact .retry hl
    next value hl =>
      split at h
      next hvalue =>
        obtain ⟨rfl, rfl⟩ := Prod.mk.inj (Option.some.inj h)
        exact .emptied hl hvalue
      next =>
        obtain ⟨rfl, rfl⟩ := Prod.mk.inj (Option.some.inj h)
        exact .retryRelease hl
    next => contradiction

/-- A thread that goes on has another value to store. -/
theorem inFlight_update [Fintype Thread] (s : State Thread Obj) (ivar : Option Obj) (t : Thread)
    (l : Local Obj) (o : Obj) :
    (⟨ivar, Function.update s.locals t l⟩ : State Thread Obj).inFlight o +
        (if (s.locals t).value = some o then 1 else 0) =
      s.inFlight o + (if l.value = some o then 1 else 0) :=
  count_update_comp Local.value s.locals t l

theorem inFlight_goto [Fintype Thread] (s : State Thread Obj) (t : Thread) (l : Local Obj)
    (o : Obj) : (s.goto t l).inFlight o + (if (s.locals t).value = some o then 1 else 0) =
      s.inFlight o + (if l.value = some o then 1 else 0) :=
  inFlight_update s s.ivar t l o

theorem held_goto (s : State Thread Obj) (t : Thread) (l : Local Obj) (o : Obj) :
    (s.goto t l).held o = s.held o := rfl

/-- How often a value is reported. -/
theorem count_owning (hne : ivarType ≠ .assign) (value : Option Obj)
    (events : Obj → List (Event Obj)) (e : Event Obj) {k : ℕ}
    (hevents : ∀ p, (events p).count e = if p = o then k else 0) :
    (ivarType.owning value events).count e = if value = some o then k else 0 := by
  rw [IvarType.owning, if_neg hne]
  cases value with
  | none => simp
  | some p => simp [hevents]

/-- No thread is in the final release. -/
def State.NoRelease (s : State Thread Obj) : Prop :=
  ∀ t, s.locals t ≠ .releasing ∧ ∀ value, s.locals t ≠ .emptying value

omit [DecidableEq Obj] in
theorem State.NoRelease.update (hs : s.NoRelease) {ivar : Option Obj} {t : Thread} {l : Local Obj}
    (hl : l ≠ .releasing ∧ ∀ value, l ≠ .emptying value) :
    (⟨ivar, Function.update s.locals t l⟩ : State Thread Obj).NoRelease := by
  intro u
  by_cases hu : u = t
  · subst hu
    simpa using hl
  · simpa [Function.update_of_ne hu] using hs u

omit [DecidableEq Obj] in
/-- An instance variable that is assigned only changes no references. -/
theorem assign_step (hs : s.NoRelease) (h : Steps .assign s a es s') :
    es = [] ∧ s'.NoRelease := by
  cases h with
  | update | found | seen | swapped | retry => exact ⟨rfl, hs.update ⟨by simp, by simp⟩⟩
  | release _ hne => exact absurd rfl hne
  | empty hl | full hl => exact absurd hl (hs _).1
  | emptied hl | retryRelease hl => exact absurd hl ((hs _).2 _)

/-- A thread that goes on with the same value changes no references. -/
theorem inFlight_eq [Fintype Thread] {ivar : Option Obj} {t : Thread} {l : Local Obj}
    (hl : l.value = (s.locals t).value) :
    (⟨ivar, Function.update s.locals t l⟩ : State Thread Obj).inFlight o = s.inFlight o := by
  have hcarried := inFlight_update s ivar t l o
  rw [hl] at hcarried
  omega

/-- Every step of an instance variable that owns its value accounts for its references. -/
theorem accounted_step [Fintype Thread] (hne : ivarType ≠ .assign) (hfresh : Fresh ivarType s a)
    (h : Steps ivarType s a es s') (o : Obj) :
    es.count (.taken o) + s.held o + s.inFlight o =
        es.count (.autoreleased o) + es.count (.released o) + s'.held o + s'.inFlight o ∧
      es.count (.autoreleased o) = es.count (.replaced o) ∧
      es.count (.released o) = es.count (.emptied o) := by
  cases h with
  | @update t value copied hl =>
    generalize ivarType.stored value copied = stored
    have hcarried := inFlight_goto s t (.updating stored) o
    have hcount (e : Event Obj) (k : ℕ)
        (he : ∀ p, [Event.taken p].count e = if p = o then k else 0) :=
      count_owning hne stored (fun o => [.taken o]) e he
    rw [hcount (.taken o) 1 (by simp [List.count_cons]), hcount (.autoreleased o) 0 (by simp),
      hcount (.released o) 0 (by simp), hcount (.replaced o) 0 (by simp),
      hcount (.emptied o) 0 (by simp), held_goto]
    by_cases ho : stored = some o
    · simp only [hl, Local.value, ho, if_true, reduceCtorEq, if_false] at hcarried ⊢
      exact ⟨by omega, trivial, trivial⟩
    · simp only [hl, Local.value, ho, reduceCtorEq, if_false] at hcarried ⊢
      exact ⟨by omega, trivial, trivial⟩
  | @found t value hl hvalue =>
    have hnone : value = none := by
      cases value with
      | none => rfl
      | some p => exact absurd hvalue (hfresh hne p hl)
    subst hnone
    rw [held_goto, State.goto, inFlight_eq (by rw [hl]; rfl)]
    simp
  | release hl | seen hl | empty hl | full hl | retry hl | retryRelease hl =>
    rw [held_goto, State.goto, inFlight_eq (by rw [hl]; rfl)]
    simp
  | @swapped t value hl =>
    have hcarried := inFlight_update s value t .idle o
    have hcount (e : Event Obj) (k : ℕ)
        (he : ∀ p, [Event.replaced p, .autoreleased p].count e = if p = o then k else 0) :=
      count_owning hne s.ivar (fun o => [.replaced o, .autoreleased o]) e he
    rw [hcount (.taken o) 0 (by simp), hcount (.autoreleased o) 1 (by simp [List.count_cons]),
      hcount (.released o) 0 (by simp), hcount (.replaced o) 1 (by simp [List.count_cons]),
      hcount (.emptied o) 0 (by simp)]
    simp only [hl, Local.value, reduceCtorEq, if_false] at hcarried
    simp only [State.held]
    by_cases ho : s.ivar = some o
    · simp only [ho, if_true]
      exact ⟨by omega, trivial, trivial⟩
    · simp only [ho, if_false]
      exact ⟨by omega, trivial, trivial⟩
  | @emptied t value hl hvalue =>
    have hcarried := inFlight_update s none t .idle o
    simp only [hl, Local.value, reduceCtorEq, if_false] at hcarried
    have hheld : s.held o = if value = o then 1 else 0 := by simp [State.held, hvalue]
    rw [hheld]
    by_cases ho : value = o
    · subst ho
      simp [State.held]
      omega
    · simp [ho, State.held]
      omega

end Step

section Run

variable [Fintype Thread] {ivarType : IvarType} {s s' : State Thread Obj} {es : List (Event Obj)}

omit [DecidableEq Thread] in
theorem inFlight_quiet (hs : s.Quiet) (o : Obj) : s.inFlight o = 0 := by
  apply count_eq_zero
  intro t _
  rw [hs t]
  simp [Local.value]

/-- Every run accounts for the references, if no update finds what it is to store. -/
theorem accounted_of_run (hne : ivarType ≠ .assign) (hs : s.Quiet)
    (hrun : RunWhile (State.step ivarType) (Fresh ivarType) s es s') :
    Accounted s s' es := by
  refine hrun.invariant_trace (fun es s' => Accounted s s' es) ?_ ?_
  · intro r a es fs r' hfresh haccounted hstep
    have hsteps := accounted_step hne hfresh (steps_of_step hstep)
    constructor
    · intro o
      have hreferences := haccounted.references o
      have hnew := (hsteps o).1
      simp only [List.count_append]
      omega
    · intro o
      rw [List.count_append, List.count_append, haccounted.autoreleased o, (hsteps o).2.1]
    · intro o
      rw [List.count_append, List.count_append, haccounted.released o, (hsteps o).2.2]
  · constructor
    · intro o
      rw [inFlight_quiet hs o]
      simp
    · exact fun _ => rfl
    · exact fun _ => rfl

/-- In every run in which no update finds the very object that it is to store, the instance
variable owns one reference to its value, and none is lost. -/
theorem ownsOne_of_run (hs : s.Quiet)
    (hrun : RunWhile (State.step ivarType) (Fresh ivarType) s es s') :
    OwnsOne ivarType s s' es := by
  cases ivarType with
  | retain => exact accounted_of_run (by decide) hs hrun
  | copy => exact accounted_of_run (by decide) hs hrun
  | assign =>
    refine (hrun.invariant_trace (fun es s' => es = [] ∧ s'.NoRelease) ?_ ⟨rfl, ?_⟩).1
    · rintro r a _ fs r' _ ⟨rfl, hr⟩ hstep
      obtain ⟨rfl, hr'⟩ := assign_step hr (steps_of_step hstep)
      exact ⟨rfl, hr'⟩
    · intro t
      rw [hs t]
      exact ⟨by simp, by simp⟩

end Run

/-- Nothing is stored yet, and no thread is at work. -/
def State.init (Thread Obj : Type*) : State Thread Obj := ⟨none, fun _ => .idle⟩

/-- Two threads store two objects, and the last one is released. -/
theorem two_updates_owned : ∃ es, ∃ s' : State Bool Bool,
    OwnsOne .retain (.init Bool Bool) s' es ∧ s'.ivar = none ∧
      es = [.taken true, .taken false, .replaced false, .autoreleased false, .emptied true,
        .released true] := by
  have hrun : ∃ es, ∃ s' : State Bool Bool,
      RunWhile (State.step .retain) (Fresh .retain) (.init Bool Bool) es s' ∧ s'.ivar = none ∧
        es = [.taken true, .taken false, .replaced false, .autoreleased false, .emptied true,
          .released true] := by
    refine ⟨_, _, ((((((((RunWhile.refl _).tail (.update true (some true) none) trivial rfl).tail
      (.update false (some false) none) trivial rfl).tail (.read false) ?_ rfl).tail
      (.cas false) trivial rfl).tail (.read true) ?_ rfl).tail (.cas true) trivial rfl).tail
      (.release true) trivial rfl).tail (.read true) ?_ rfl |>.tail (.cas true) trivial rfl,
      rfl, rfl⟩
    · intro _ o _
      exact (Option.some_ne_none o).symm
    · intro _ o hl
      obtain rfl : true = o := Option.some.inj (Local.updating.inj hl)
      exact (show (some false : Option Bool) ≠ some true by decide)
    · intro _ o hl
      have hreleasing : (Local.releasing : Local Bool) = .updating (some o) := hl
      contradiction
  obtain ⟨es, s', hrun, hivar, hes⟩ := hrun
  exact ⟨es, s', ownsOne_of_run (fun _ => rfl) hrun, hivar, hes⟩

/-- The same object is stored again. The early return loses its second reference. -/
theorem stored_again_leaks :
    ¬∀ {es : List (Event Unit)} {s' : State Unit Unit},
      Run (State.step .retain) (.init Unit Unit) es s' →
        OwnsOne .retain (.init Unit Unit) s' es := by
  intro h
  have hrun := run_of_exec (State.step .retain) (.init Unit Unit)
    [.update () (some ()) none, .read (), .cas (), .update () (some ()) none, .read ()] rfl
  have hreferences := (h hrun).references ()
  exact absurd hreferences (by decide)

end MulleObjC.AtomicId
