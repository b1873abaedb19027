import MulleObjC.AtomicId.Update

/-!
# Lazy atomic instance variables

`_MulleObjCAtomicIdGetLazy` loads the value of an instance variable that is `nil`. Several
threads may load at a time, and the first to store its value wins. Every read and every
compare-and-swap is one step, and a call of the loader is one.
-/

namespace MulleObjC.AtomicId.Lazy

open Machine
open Holdings (count count_update_comp count_eq_zero)

/-- What is reported. -/
inductive Event (Thread Obj : Type*)
  /-- A reference was got from the loader, by `-retain` or by `-copy`. -/
  | taken (o : Obj)
  /-- The thread has loaded a value, and made of it what the instance variable stores. -/
  | loaded (t : Thread) (value : Obj)
  /-- The instance variable has got its value. -/
  | stored (value : Obj)
  /-- The instance variable had a value already. -/
  | lost (t : Thread) (value : Obj)
  | released (o : Obj)
  | autoreleased (o : Obj)
  | returned (t : Thread) (value : Option Obj)
  /-- `MulleObjCThrowInvalidArgumentExceptionUTF8String` -/
  | thrown (t : Thread)
  deriving DecidableEq

/-- Where a thread is. -/
inductive Local (Obj : Type*)
  | idle
  /-- In front of `value = (id) _mulle_atomic_id_get( ivar)` -/
  | reading
  /-- In front of `value = [obj performSelector:lazyLoader]` -/
  | loading
  /-- In front of `_mulle_atomic_pointer_cas( &ivar->pointer, value, NULL)` -/
  | swapping (value : Option Obj)
  deriving DecidableEq

/-- The value that a thread is about to store. -/
def Local.value {Obj : Type*} : Local Obj → Option Obj
  | swapping value => value
  | _ => none

/-- The instance variable, and the threads that get it. -/
structure State (Thread Obj : Type*) where
  ivar : Option Obj
  locals : Thread → Local Obj

/-- What a thread does next. -/
inductive Act (Thread Obj : Type*)
  /-- `_MulleObjCAtomicIdGetLazy` -/
  | getLazy (t : Thread)
  | read (t : Thread)
  /-- The loader returns `value`. If it is asked for a copy, `-copy` returns `copied`. -/
  | load (t : Thread) (value copied : Option Obj)
  | cas (t : Thread)

variable {Thread Obj : Type*} [DecidableEq Thread]

/-- The reference that comes with the return value of a loader: `_C_ASSIGN_ID` returns
autoreleased, `_C_COPY_ID` a copy and `_C_RETAIN_ID` already retained. -/
def transferred (lazyLoaderReturnType : IvarType) (value : Obj) : List (Event Thread Obj) :=
  if lazyLoaderReturnType = .assign then [] else [.taken value]

/-- A value is loaded for the compare-and-swap. -/
def loadedEvents (t : Thread) (value : Option Obj) : List (Event Thread Obj) :=
  value.toList.map (.loaded t)

namespace State

/-- A thread goes on. -/
def goto (s : State Thread Obj) (t : Thread) (l : Local Obj) : State Thread Obj :=
  ⟨s.ivar, Function.update s.locals t l⟩

/-- What is done with a value that the loader has returned. -/
def load (ivarType lazyLoaderReturnType : IvarType) (s : State Thread Obj) (t : Thread)
    (value : Obj) (copied : Option Obj) : List (Event Thread Obj) × State Thread Obj :=
  if ivarType ≠ lazyLoaderReturnType then
    if lazyLoaderReturnType ≠ .assign then
      ([.taken value, .autoreleased value, .thrown t], s.goto t .idle)
    else
      match ivarType with
      | .copy => (copied.toList.map .taken ++ loadedEvents t copied, s.goto t (.swapping copied))
      | .retain => ([.taken value, .loaded t value], s.goto t (.swapping (some value)))
      | .assign => ([.loaded t value], s.goto t (.swapping (some value)))
  else (transferred lazyLoaderReturnType value ++ [.loaded t value],
    s.goto t (.swapping (some value)))

/-- One step of one thread. -/
def step (ivarType lazyLoaderReturnType : IvarType) (s : State Thread Obj) :
    Act Thread Obj → Option (List (Event Thread Obj) × State Thread Obj)
  | .getLazy t =>
    match s.locals t with
    | .idle => some ([], s.goto t .reading)
    | _ => none
  | .read t =>
    match s.locals t, s.ivar with
    | .reading, some value => some ([.returned t (some value)], s.goto t .idle)
    | .reading, none => some ([], s.goto t .loading)
    | _, _ => none
  | .load t value copied =>
    match s.locals t, value with
    | .loading, none => some ([.returned t none], s.goto t .idle)
    | .loading, some value => some (s.load ivarType lazyLoaderReturnType t value copied)
    | _, _ => none
  | .cas t =>
    match s.locals t, s.ivar with
    | .swapping value, none =>
      some (value.toList.map .stored ++ [.returned t value],
        ⟨value, Function.update s.locals t .idle⟩)
    | .swapping value, some _ =>
      some (value.toList.flatMap fun o =>
          .lost t o :: if ivarType = .assign then [] else [.released o],
        s.goto t .reading)
    | _, _ => none

/-- Nothing is stored yet, and no thread is at work. -/
def init (Thread Obj : Type*) : State Thread Obj := ⟨none, fun _ => .idle⟩

/-- The references of the instance variable to an object. -/
def held [DecidableEq Obj] (s : State Thread Obj) (o : Obj) : ℕ := if s.ivar = some o then 1 else 0

/-- The references that were taken, and are not stored yet. -/
def inFlight [Fintype Thread] [DecidableEq Obj] (s : State Thread Obj) (o : Obj) : ℕ :=
  count Finset.univ (fun t => (s.locals t).value) o

end State

/-- The values that were stored, in their order. -/
def storedValues (es : List (Event Thread Obj)) : List Obj :=
  es.filterMap fun e => match e with
    | .stored value => some value
    | _ => none

/-- The number of values that were lost. -/
def losses [DecidableEq Obj] (es : List (Event Thread Obj)) (o : Obj) : ℕ :=
  es.countP fun e => match e with
    | .lost _ value => value = o
    | _ => false

/-- A run of calls on one instance variable. -/
structure LoadsOnce [Fintype Thread] [DecidableEq Obj] (ivarType : IvarType) (s : State Thread Obj)
    (es : List (Event Thread Obj)) : Prop where
  /-- The instance variable changes once at most, from `nil`. -/
  once : storedValues es = s.ivar.toList
  /-- The value was loaded by some call. -/
  loaded : ∀ value, s.ivar = some value → ∃ t, .loaded t value ∈ es
  /-- Every call that does not return `nil` returns the value of the instance variable. -/
  returned : ∀ t value, .returned t (some value) ∈ es → s.ivar = some value
  /-- Every reference is given back, in the instance variable or about to be stored. -/
  references : ivarType ≠ .assign → ∀ o, es.count (.taken o) =
    es.count (.released o) + es.count (.autoreleased o) + s.held o + s.inFlight o
  /-- Every loss gives back the reference once. -/
  lost : ivarType ≠ .assign → ∀ o, es.count (.released o) = losses es o
  /-- An assigned instance variable takes no references but those that a refused loader has
  returned. -/
  assigned : ivarType = .assign → ∀ o, es.count (.taken o) = es.count (.autoreleased o) ∧
    es.count (.released o) = 0

/-- What is reported of a value that is to be stored. -/
def accepted (ivarType : IvarType) (t : Thread) (value : Option Obj) : List (Event Thread Obj) :=
  value.toList.flatMap fun o => (if ivarType = .assign then [] else [.taken o]) ++ [.loaded t o]

/-- What is reported of a value that is not stored. -/
def rejected (ivarType : IvarType) (t : Thread) (value : Option Obj) : List (Event Thread Obj) :=
  value.toList.flatMap fun o => .lost t o :: if ivarType = .assign then [] else [.released o]

/-- What a step can do, in the order of the source. -/
inductive Steps (ivarType : IvarType) (s : State Thread Obj) :
    List (Event Thread Obj) → State Thread Obj → Prop
  | call {t : Thread} (hl : s.locals t = .idle) : Steps ivarType s [] (s.goto t .reading)
  | full {t : Thread} {value : Obj} (hl : s.locals t = .reading) (hvalue : s.ivar = some value) :
      Steps ivarType s [.returned t (some value)] (s.goto t .idle)
  | empty {t : Thread} (hl : s.locals t = .reading) : Steps ivarType s [] (s.goto t .loading)
  | nothing {t : Thread} (hl : s.locals t = .loading) :
      Steps ivarType s [.returned t none] (s.goto t .idle)
  | refused {t : Thread} (value : Obj) (hl : s.locals t = .loading) :
      Steps ivarType s [.taken value, .autoreleased value, .thrown t] (s.goto t .idle)
  | loaded {t : Thread} (value : Option Obj) (hl : s.locals t = .loading) :
      Steps ivarType s (accepted ivarType t value) (s.goto t (.swapping value))
  | won {t : Thread} {value : Option Obj} (hl : s.locals t = .swapping value)
      (hivar : s.ivar = none) : Steps ivarType s (value.toList.map .stored ++ [.returned t value])
        ⟨value, Function.update s.locals t .idle⟩
  | lost {t : Thread} {value : Option Obj} (hl : s.locals t = .swapping value)
      (hivar : s.ivar ≠ none) : Steps ivarType s (rejected ivarType t value) (s.goto t .reading)

section Step

variable {ivarType lazyLoaderReturnType : IvarType} {s s' : State Thread Obj}
  {a : Act Thread Obj} {es : List (Event Thread Obj)} {t : Thread} {o value : Obj}

/-- A loaded value is refused, or it is to be stored with a reference of its own. -/
theorem steps_of_load (hl : s.locals t = .loading) {copied : Option Obj}
    (h : s.load ivarType lazyLoaderReturnType t value copied = (es, s')) :
    Steps ivarType s es s' := by
  unfold State.load at h
  split at h
  next hne =>
    split at h
    next =>
      obtain ⟨rfl, rfl⟩ := Prod.mk.inj h
      exact .refused value hl
    next hloader =>
      cases ivarType with
      | copy =>
        obtain ⟨rfl, rfl⟩ := Prod.mk.inj h
        cases copied with
        | none => exact .loaded none hl
        | some copied => exact .loaded (some copied) hl
      | retain | assign =>
        obtain ⟨rfl, rfl⟩ := Prod.mk.inj h
        exact .loaded (some value) hl
  next heq =>
    obtain rfl := not_not.mp heq
    obtain ⟨rfl, rfl⟩ := Prod.mk.inj h
    cases ivarType with
    | copy | retain | assign => exact .loaded (some value) hl

theorem steps_of_step (h : s.step ivarType lazyLoaderReturnType a = some (es, s')) :
    Steps ivarType s es s' := by
  cases a with
  | getLazy t =>
    simp only [State.step] at h
    split at h
    next hl =>
      obtain ⟨rfl, rfl⟩ := Prod.mk.inj (Option.some.inj h)
      exact .call hl
    next => contradiction
  | read t =>
    simp only [State.step] at h
    split at h
    next hl hvalue =>
      obtain ⟨rfl, rfl⟩ := Prod.mk.inj (Option.some.inj h)
      exact .full hl hvalue
    next hl _ =>
      obtain ⟨rfl, rfl⟩ := Prod.mk.inj (Option.some.inj h)
      exact .empty hl
    next => contradiction
  | load t value copied =>
    simp only [State.step] at h
    split at h
    next hl =>
      obtain ⟨rfl, rfl⟩ := Prod.mk.inj (Option.some.inj h)
      exact .nothing hl
    next hl => exact steps_of_load hl (Option.some.inj h)
    next => contradiction
  | cas t =>
    simp only [State.step] at h
    split at h
    next hl hivar =>
      obtain ⟨rfl, rfl⟩ := Prod.mk.inj (Option.some.inj h)
      exact .won hl hivar
    next hl hivar =>
      obtain ⟨rfl, rfl⟩ := Prod.mk.inj (Option.some.inj h)
      exact .lost hl (by simp [hivar])
    next => contradiction

/-- A thread that goes on has another value to store. -/
theorem inFlight_update [Fintype Thread] [DecidableEq Obj] (s : State Thread Obj)
    (ivar : Option Obj) (t : Thread) (l : Local Obj) (o : Obj) :
    (⟨ivar, Function.update s.locals t l⟩ : State Thread Obj).inFlight o +
        (if (s.locals t).value = some o then 1 else 0) =
      s.inFlight o + (if l.value = some o then 1 else 0) :=
  count_update_comp Local.value s.locals t l

omit [DecidableEq Thread] in
theorem mem_accepted {v : Option Obj} {e : Event Thread Obj} (he : e ∈ accepted ivarType t v) :
    ∃ o, v = some o ∧ (e = .taken o ∨ e = .loaded t o) := by
  obtain ⟨o, ho, he⟩ := List.mem_flatMap.mp he
  refine ⟨o, Option.mem_toList.mp ho, ?_⟩
  rcases List.mem_append.mp he with he | he
  · split at he
    · simp at he
    · exact .inl (List.mem_singleton.mp he)
  · exact .inr (List.mem_singleton.mp he)

omit [DecidableEq Thread] in
theorem mem_rejected {v : Option Obj} {e : Event Thread Obj} (he : e ∈ rejected ivarType t v) :
    ∃ o, e = .lost t o ∨ e = .released o := by
  obtain ⟨o, _, he⟩ := List.mem_flatMap.mp he
  refine ⟨o, ?_⟩
  rcases List.mem_cons.mp he with rfl | he
  · exact .inl rfl
  · split at he
    · simp at he
    · exact .inr (List.mem_singleton.mp he)

/-- What is stored is the value behind the step. -/
theorem stored_step (h : Steps ivarType s es s') :
    s'.ivar.toList = s.ivar.toList ++ storedValues es := by
  cases h with
  | call | full | empty | nothing | refused => simp [storedValues, State.goto]
  | @loaded t v =>
    have hnone : storedValues (accepted ivarType t v) = [] := by
      refine List.filterMap_eq_nil_iff.mpr ?_
      intro e he
      obtain ⟨o, _, rfl | rfl⟩ := mem_accepted he
      · rfl
      · rfl
    rw [hnone, List.append_nil]
    rfl
  | @won t v hl hivar =>
    rw [hivar]
    cases v with
    | none => rfl
    | some value => rfl
  | @lost t v hl hivar =>
    have hnone : storedValues (rejected ivarType t v) = [] := by
      refine List.filterMap_eq_nil_iff.mpr ?_
      intro e he
      obtain ⟨o, rfl | rfl⟩ := mem_rejected he
      · rfl
      · rfl
    rw [hnone, List.append_nil]
    rfl

/-- A value stays. -/
theorem ivar_step (h : Steps ivarType s es s') (hvalue : s.ivar = some value) :
    s'.ivar = some value := by
  cases h with
  | won hl hivar =>
    rw [hvalue] at hivar
    contradiction
  | call | full | empty | nothing | refused | loaded | lost => exact hvalue

/-- A call returns what the instance variable then has. -/
theorem returned_step {u : Thread} (h : Steps ivarType s es s')
    (hreturned : .returned u (some value) ∈ es) : s'.ivar = some value := by
  cases h with
  | full hl hvalue =>
    obtain ⟨_, hret⟩ := Event.returned.inj (List.mem_singleton.mp hreturned)
    exact hvalue.trans hret.symm
  | won hl hivar =>
    rcases List.mem_append.mp hreturned with hmem | hmem
    · simp at hmem
    · exact (Event.returned.inj (List.mem_singleton.mp hmem)).2.symm
  | call | empty | nothing | refused => simp at hreturned
  | loaded v =>
    obtain ⟨_, _, he | he⟩ := mem_accepted hreturned
    · simp at he
    · simp at he
  | lost =>
    obtain ⟨_, he | he⟩ := mem_rejected hreturned
    · simp at he
    · simp at he

/-- A value that a thread is about to store was loaded. -/
theorem swapping_step {u : Thread} (h : Steps ivarType s es s')
    (hl : s'.locals u = .swapping (some value)) :
    s.locals u = .swapping (some value) ∨ .loaded u value ∈ es := by
  have hupdate {ivar : Option Obj} {t : Thread} {l : Local Obj} (hne : l ≠ .swapping (some value))
      (hl : (⟨ivar, Function.update s.locals t l⟩ : State Thread Obj).locals u =
        .swapping (some value)) : s.locals u = .swapping (some value) := by
    by_cases hu : u = t
    · subst hu
      simp [hne] at hl
    · simpa [Function.update_of_ne hu] using hl
  cases h with
  | call | full | empty | nothing | refused | won | lost => exact .inl (hupdate (by simp) hl)
  | @loaded t v =>
    by_cases hv : v = some value
    · subst hv
      by_cases hu : u = t
      · subst hu
        exact .inr (by simp [accepted])
      · exact .inl (by simpa [State.goto, Function.update_of_ne hu] using hl)
    · exact .inl (hupdate (by simp [hv]) hl)

/-- A new value of the instance variable is one that a thread was about to store. -/
theorem loaded_step (h : Steps ivarType s es s') (hvalue : s'.ivar = some value) :
    s.ivar = some value ∨ ∃ t, s.locals t = .swapping (some value) := by
  cases h with
  | @won t v hl hivar =>
    obtain rfl : v = some value := hvalue
    exact .inr ⟨t, hl⟩
  | call | full | empty | nothing | refused | loaded | lost => exact .inl hvalue

end Step

section Count

variable [DecidableEq Obj] {ivarType : IvarType} {s s' : State Thread Obj}
  {es : List (Event Thread Obj)} {t : Thread} {v : Option Obj} {o : Obj}

omit [DecidableEq Thread] in
theorem losses_append (es fs : List (Event Thread Obj)) :
    losses (es ++ fs) o = losses es o + losses fs o := List.countP_append

/-- What is reported of a value that is to be stored, with its reference. -/
theorem count_accepted (hne : ivarType ≠ .assign) :
    (accepted ivarType t v).count (.taken o) = (if v = some o then 1 else 0) ∧
      (accepted ivarType t v).count (.released o) = 0 ∧
      (accepted ivarType t v).count (.autoreleased o) = 0 ∧
      losses (accepted ivarType t v) o = 0 := by
  cases v with
  | none => simp [accepted, losses]
  | some p => simp [accepted, losses, hne, List.count_cons]

theorem count_rejected (hne : ivarType ≠ .assign) :
    (rejected ivarType t v).count (.taken o) = 0 ∧
      (rejected ivarType t v).count (.released o) = (if v = some o then 1 else 0) ∧
      (rejected ivarType t v).count (.autoreleased o) = 0 ∧
      losses (rejected ivarType t v) o = (if v = some o then 1 else 0) := by
  cases v with
  | none => simp [rejected, losses]
  | some p =>
    by_cases hp : p = o
    · simp [rejected, losses, hne, hp]
    · simp [rejected, losses, hne, hp]

theorem count_won (t : Thread) (v : Option Obj) (o : Obj) :
    let es : List (Event Thread Obj) := v.toList.map .stored ++ [.returned t v]
    es.count (.taken o) = 0 ∧ es.count (.released o) = 0 ∧ es.count (.autoreleased o) = 0 ∧
      losses es o = 0 := by
  cases v with
  | none => simp [losses]
  | some p => simp [losses]

/-- A thread that goes on with nothing to store changes no references. -/
theorem inFlight_goto [Fintype Thread] {l : Local Obj} (hl : l.value = (s.locals t).value) :
    (s.goto t l).inFlight o = s.inFlight o := by
  have hcarried := inFlight_update s s.ivar t l o
  rw [hl] at hcarried
  exact Nat.add_right_cancel hcarried

/-- Every step accounts for the references, if the instance variable owns its value. -/
theorem references_step [Fintype Thread] (hne : ivarType ≠ .assign) (h : Steps ivarType s es s')
    (o : Obj) :
    es.count (.taken o) + s.held o + s.inFlight o =
      es.count (.released o) + es.count (.autoreleased o) + s'.held o + s'.inFlight o ∧
    es.count (.released o) = losses es o := by
  have hheld (t : Thread) (l : Local Obj) : (s.goto t l).held o = s.held o := rfl
  have hflight (t : Thread) (l : Local Obj) : (s.goto t l).inFlight o +
      (if (s.locals t).value = some o then 1 else 0) =
        s.inFlight o + (if l.value = some o then 1 else 0) := inFlight_update s s.ivar t l o
  cases h with
  | call hl | full hl | empty hl | nothing hl =>
    rw [hheld, inFlight_goto (by rw [hl]; rfl)]
    exact ⟨by simp, rfl⟩
  | refused v hl =>
    rw [hheld, inFlight_goto (by rw [hl]; rfl)]
    exact ⟨by simp [List.count_cons], by simp [losses]⟩
  | @loaded t v hl =>
    obtain ⟨htaken, hreleased, hautoreleased, hlosses⟩ :=
      count_accepted (t := t) (v := v) (o := o) hne
    have hcarried : _ + _ = s.inFlight o + (if v = some o then 1 else 0) :=
      hflight t (.swapping v)
    simp only [hl, Local.value, reduceCtorEq, if_false] at hcarried
    rw [htaken, hreleased, hautoreleased, hlosses, hheld]
    exact ⟨by omega, rfl⟩
  | @won t v hl hivar =>
    obtain ⟨htaken, hreleased, hautoreleased, hlosses⟩ := count_won t v o
    have hcarried := inFlight_update s v t .idle o
    simp only [hl, Local.value, reduceCtorEq, if_false] at hcarried
    rw [htaken, hreleased, hautoreleased, hlosses]
    refine ⟨?_, rfl⟩
    by_cases ho : v = some o
    · simp only [ho, if_true] at hcarried
      simp only [State.held, hivar, ho, reduceCtorEq, if_false, if_true]
      omega
    · simp only [ho, if_false] at hcarried
      simp only [State.held, hivar, ho, reduceCtorEq, if_false]
      omega
  | @lost t v hl hivar =>
    obtain ⟨htaken, hreleased, hautoreleased, hlosses⟩ :=
      count_rejected (t := t) (v := v) (o := o) hne
    have hcarried := hflight t .reading
    simp only [hl, Local.value, reduceCtorEq, if_false] at hcarried
    rw [htaken, hreleased, hautoreleased, hlosses, hheld]
    exact ⟨by omega, rfl⟩

/-- An assigned instance variable takes no references. -/
theorem assigned_step (h : Steps .assign s es s') (o : Obj) :
    es.count (.taken o) = es.count (.autoreleased o) ∧ es.count (.released o) = 0 := by
  cases h with
  | call | full | empty | nothing => simp
  | refused v => simp [List.count_cons]
  | loaded v =>
    cases v <;> simp [accepted]
  | @won t v => cases v <;> simp
  | @lost t v => cases v <;> simp [rejected]

end Count

section Run

variable [Fintype Thread] [DecidableEq Obj] {ivarType lazyLoaderReturnType : IvarType}
  {s : State Thread Obj} {es : List (Event Thread Obj)}

omit [DecidableEq Thread] in
theorem inFlight_init (o : Obj) : (State.init Thread Obj).inFlight o = 0 := by
  apply count_eq_zero
  intro t _
  simp [State.init, Local.value]

/-- The values that threads are about to store were loaded. -/
def Carries (s : State Thread Obj) (es : List (Event Thread Obj)) : Prop :=
  ∀ t value, s.locals t = .swapping (some value) → .loaded t value ∈ es

/-- One more step of a run. -/
theorem loadsOnce_step {s' : State Thread Obj} {fs : List (Event Thread Obj)}
    (hs : LoadsOnce ivarType s es ∧ Carries s es) (h : Steps ivarType s fs s') :
    LoadsOnce ivarType s' (es ++ fs) ∧ Carries s' (es ++ fs) := by
  obtain ⟨honce, hcarries⟩ := hs
  constructor
  · constructor
    case once =>
      rw [stored_step h, ← honce.once]
      exact List.filterMap_append
    case loaded =>
      intro value hvalue
      rcases loaded_step h hvalue with hold | ⟨t, hl⟩
      · obtain ⟨t, ht⟩ := honce.loaded value hold
        exact ⟨t, List.mem_append_left fs ht⟩
      · exact ⟨t, List.mem_append_left fs (hcarries t value hl)⟩
    case returned =>
      intro t value hmem
      rcases List.mem_append.mp hmem with hmem | hmem
      · exact ivar_step h (honce.returned t value hmem)
      · exact returned_step h hmem
    case references =>
      intro hne o
      have hold := honce.references hne o
      have hnew := (references_step hne h o).1
      simp only [List.count_append]
      omega
    case lost =>
      intro hne o
      rw [List.count_append, losses_append, honce.lost hne o, (references_step hne h o).2]
    case assigned =>
      rintro rfl o
      have hold := honce.assigned rfl o
      have hnew := assigned_step h o
      simp only [List.count_append]
      omega
  · intro t value hl
    rcases swapping_step h hl with hold | hloaded
    · exact List.mem_append_left fs (hcarries t value hold)
    · exact List.mem_append_right es hloaded

/-- In every run of lazy getters the instance variable gets one value at most, every getter
returns it, and the references of the values that are lost are given back. -/
theorem loadsOnce_of_run
    (hrun : Run (State.step ivarType lazyLoaderReturnType) (.init Thread Obj) es s) :
    LoadsOnce ivarType s es := by
  refine (hrun.invariant_trace (fun es s => LoadsOnce ivarType s es ∧ Carries s es) ?_ ?_).1
  · intro r a es fs r' _ hr hstep
    exact loadsOnce_step hr (steps_of_step hstep)
  · constructor
    · constructor
      case once => rfl
      case loaded => exact fun value hvalue => nomatch hvalue
      case returned => exact fun t value hmem => nomatch hmem
      case references =>
        intro _ o
        rw [inFlight_init o]
        rfl
      case lost => exact fun _ _ => rfl
      case assigned => exact fun _ _ => ⟨rfl, rfl⟩
    · intro t value hl
      exact nomatch hl

end Run

/-- Two threads load at a time. The late one gives its value back and returns the value of the
other. -/
theorem race_loads_once : ∃ es, ∃ s : State Bool Bool, LoadsOnce .retain s es ∧
    s.ivar = some true ∧ es = [.taken false, .loaded false false, .taken true, .loaded true true,
      .stored true, .returned true (some true), .lost false false, .released false,
      .returned false (some true)] := by
  have hrun := run_of_exec (State.step .retain .assign) (.init Bool Bool)
    [.getLazy false, .getLazy true, .read false, .read true, .load false (some false) none,
      .load true (some true) none, .cas true, .cas false, .read false] rfl
  exact ⟨_, _, loadsOnce_of_run hrun, rfl, rfl⟩

end MulleObjC.AtomicId.Lazy
