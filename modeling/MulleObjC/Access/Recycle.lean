import MulleObjC.Access.Balance
import MulleObjC.Library.Holdings
import MulleObjC.Library.Machine

/-!
# Recycling and acquiring objects

One thread recycles an object into a slot, another one acquires it there. The object is
relinquished in front of the compare-and-swap that stores it, and gained behind the one that
takes it out. A recycle that fails gains the object back. Every read and every compare-and-swap
of the slot is one step, and so is a gain.
-/

namespace MulleObjC.Access.Recycle

open Machine
open Holdings (count count_update_comp count_eq_zero)

/-- What is reported. -/
inductive Event (Thread Obj : Type*)
  /-- `-mulleRelinquishAccess` has added a reference. -/
  | relinquished (t : Thread) (o : Obj)
  /-- The object is in the slot, and its recycle returns `YES`. -/
  | recycled (t : Thread) (o : Obj)
  /-- `_MulleObjCRecycleObjectAtomically` returns `NO`. -/
  | failed (t : Thread) (o : Obj)
  /-- The object was taken out of the slot. -/
  | acquired (t : Thread) (o : Obj)
  /-- `-mulleGainAccess` has autoreleased the reference. -/
  | gained (t : Thread) (o : Obj)
  /-- `-mulleGainAccess` has thrown an exception. -/
  | thrown (t : Thread) (o : Obj)
  deriving DecidableEq

/-- Where a thread is. -/
inductive Local (Obj : Type*)
  | idle
  /-- In front of `_mulle_atomic_pointer_cas( p, value, NULL)` -/
  | recycling (o : Obj)
  /-- In front of `[obj mulleGainAccess]`, as the slot was taken -/
  | regaining (o : Obj)
  /-- In front of `__mulle_atomic_pointer_cas( p, NULL, value)` -/
  | acquiring (value : Obj)
  /-- In front of `[obj mulleGainAccess]`, as the object was taken out -/
  | gaining (o : Obj)
  deriving DecidableEq

/-- The object of which a thread has the reference. -/
def Local.obj {Obj : Type*} : Local Obj → Option Obj
  | recycling o | regaining o | gaining o => some o
  | idle | acquiring _ => none

section Obj

variable {Obj : Type*} (o : Obj)

@[simp] theorem Local.obj_idle : (idle : Local Obj).obj = none := rfl

@[simp] theorem Local.obj_recycling : (recycling o).obj = some o := rfl

@[simp] theorem Local.obj_regaining : (regaining o).obj = some o := rfl

@[simp] theorem Local.obj_acquiring : (acquiring o).obj = none := rfl

@[simp] theorem Local.obj_gaining : (gaining o).obj = some o := rfl

end Obj

/-- The slot, the thread ids of the objects, and the threads. -/
structure State (Thread Obj : Type*) where
  slot : Option Obj
  threadId : Obj → ThreadId Thread
  locals : Thread → Local Obj

/-- What a thread does next. -/
inductive Act (Thread Obj : Type*)
  /-- `_MulleObjCRecycleObjectAtomically` -/
  | recycle (t : Thread) (obj : Option Obj)
  /-- `_MulleObjCAcquireObjectAtomically`, up to its first compare-and-swap -/
  | acquire (t : Thread)
  | cas (t : Thread)
  /-- `-mulleGainAccess` -/
  | gain (t : Thread)

variable {Thread Obj : Type*} [DecidableEq Thread]

/-- `-mulleGainAccessWithTAOStrategy:` throws, as the object is still owned by another thread. -/
def gainThrows (strategy : TAOStrategy) (id : ThreadId Thread) (t : Thread) : Bool :=
  !decide strategy.IsKnownThreadSafe && match id with
    | .isThreadsafe | .hasNoThread => false
    | .thread u => decide (u ≠ t)

namespace State

variable [DecidableEq Obj] (strategy : Obj → TAOStrategy)

/-- A thread goes on. -/
def goto (s : State Thread Obj) (t : Thread) (l : Local Obj) : State Thread Obj :=
  { s with locals := Function.update s.locals t l }

/-- The thread ids after `-mulleRelinquishAccess`. -/
def relinquish (s : State Thread Obj) (o : Obj) : Obj → ThreadId Thread :=
  match removal (strategy o) (s.threadId o) with
  | none => s.threadId
  | some _ => Function.update s.threadId o .hasNoThread

/-- `-mulleGainAccess`, and what is reported behind it. -/
def gain (s : State Thread Obj) (t : Thread) (o : Obj) (returned : List (Event Thread Obj)) :
    List (Event Thread Obj) × State Thread Obj :=
  if gainThrows (strategy o) (s.threadId o) t then ([.thrown t o], s.goto t .idle)
  else (.gained t o :: returned,
    { s with
      threadId := Function.update s.threadId o (gainedId (strategy o) (s.threadId o) t)
      locals := Function.update s.locals t .idle })

/-- One step of one thread. A thread recycles what it has access to, as it sends a message
to it. -/
def step (s : State Thread Obj) :
    Act Thread Obj → Option (List (Event Thread Obj) × State Thread Obj)
  | .recycle t obj =>
    match s.locals t, obj with
    | .idle, none => some ([], s)
    | .idle, some o =>
      if HasAccess (strategy o) (s.threadId o) t then
        some ([.relinquished t o],
          { s with
            threadId := s.relinquish strategy o
            locals := Function.update s.locals t (.recycling o) })
      else none
    | _, _ => none
  | .acquire t =>
    match s.locals t, s.slot with
    | .idle, none => some ([], s)
    | .idle, some value => some ([], s.goto t (.acquiring value))
    | _, _ => none
  | .cas t =>
    match s.locals t, s.slot with
    | .recycling o, none =>
      some ([.recycled t o],
        { s with slot := some o, locals := Function.update s.locals t .idle })
    | .recycling o, some _ => some ([], s.goto t (.regaining o))
    | .acquiring _, none => some ([], s.goto t .idle)
    | .acquiring value, some actual =>
      if actual = value then
        some ([.acquired t actual],
          { s with slot := none, locals := Function.update s.locals t (.gaining actual) })
      else some ([], s.goto t (.acquiring actual))
    | _, _ => none
  | .gain t =>
    match s.locals t with
    | .regaining o => some (s.gain strategy t o [.failed t o])
    | .gaining o => some (s.gain strategy t o [])
    | _ => none

/-- The slot is empty, and no thread is at work. -/
def init (threadId : Obj → ThreadId Thread) : State Thread Obj := ⟨none, threadId, fun _ => .idle⟩

/-- The references of the slot to an object. -/
def held (s : State Thread Obj) (o : Obj) : ℕ := if s.slot = some o then 1 else 0

/-- The calls that hold a reference to an object. -/
def inFlight [Fintype Thread] (s : State Thread Obj) (o : Obj) : ℕ :=
  count Finset.univ (fun t => (s.locals t).obj) o

/-- The references that were relinquished and not gained yet. -/
def pending [Fintype Thread] (s : State Thread Obj) (o : Obj) : ℕ := s.held o + s.inFlight o

/-- An object that is not thread safe is given up once at a time, and no thread has access
then. -/
def Limbo [Fintype Thread] (s : State Thread Obj) (o : Obj) : Prop :=
  (strategy o).IsKnownThreadSafe ∨ s.threadId o = .isThreadsafe ∨ s.pending o = 0 ∨
    s.pending o = 1 ∧ s.threadId o = .hasNoThread

end State

/-- How often something is reported of an object. -/
def reports [Fintype Thread] [DecidableEq Obj] (event : Thread → Obj → Event Thread Obj)
    (es : List (Event Thread Obj)) (o : Obj) : ℕ :=
  es.countP fun e => decide (∃ t, e = event t o)

/-- When an object enters the slot and when it leaves it. -/
def turns [DecidableEq Obj] (es : List (Event Thread Obj)) (o : Obj) : List Bool :=
  es.filterMap fun e => match e with
    | .recycled _ p => if p = o then some true else none
    | .acquired _ p => if p = o then some false else none
    | _ => none

/-- An object enters the slot and leaves it by turns. It enters first, and it is in the slot if
it has entered last. -/
def TakesTurns [DecidableEq Obj] (s : State Thread Obj) (es : List (Event Thread Obj)) (o : Obj) :
    Prop :=
  (false :: turns es o).IsChain (· ≠ ·) ∧
    (false :: turns es o).getLast? = some (decide (s.slot = some o))

/-- A run of recycles and acquires on one slot. -/
structure HandedOver [Fintype Thread] [DecidableEq Obj] (strategy : Obj → TAOStrategy)
    (s : State Thread Obj) (es : List (Event Thread Obj)) : Prop where
  /-- What was recycled is acquired once, or it is still in the slot. -/
  recycled : ∀ o, reports .recycled es o = reports .acquired es o + s.held o
  /-- What is acquired was recycled since it was acquired last. -/
  turns : ∀ o, TakesTurns s es o
  /-- The reference of a relinquish is gained once, but for the slot and the calls that have not
  returned. -/
  references : ∀ o, reports .relinquished es o = reports .gained es o + s.held o + s.inFlight o
  /-- No gain throws. -/
  thrown : ∀ t o, .thrown t o ∉ es
  /-- A thread has access to what it has gained, be it by an acquire or by a recycle that failed,
  until the object is relinquished again. -/
  accessible : ∀ t o e fs gs, e = .gained t o ∨ e = .failed t o → es = fs ++ e :: gs →
    (∀ u, .relinquished u o ∉ gs) → HasAccess (strategy o) (s.threadId o) t
  /-- Nobody has access to an object in between. -/
  limbo : ∀ o, s.Limbo strategy o

/-- What a step can do, in the order of the source. -/
inductive Steps [DecidableEq Obj] (strategy : Obj → TAOStrategy) (s : State Thread Obj) :
    List (Event Thread Obj) → State Thread Obj → Prop
  | nothing : Steps strategy s [] s
  | relinquish {t : Thread} {o : Obj} (hl : s.locals t = .idle)
      (haccess : HasAccess (strategy o) (s.threadId o) t) :
      Steps strategy s [.relinquished t o]
        { s with
          threadId := s.relinquish strategy o
          locals := Function.update s.locals t (.recycling o) }
  | recycled {t : Thread} {o : Obj} (hl : s.locals t = .recycling o) (hslot : s.slot = none) :
      Steps strategy s [.recycled t o]
        { s with slot := some o, locals := Function.update s.locals t .idle }
  /-- A thread goes on with the reference that it has, if any. -/
  | goto {t : Thread} {l : Local Obj} (hl : l.obj = (s.locals t).obj) :
      Steps strategy s [] (s.goto t l)
  | acquired {t : Thread} {o : Obj} (hl : s.locals t = .acquiring o) (hslot : s.slot = some o) :
      Steps strategy s [.acquired t o]
        { s with slot := none, locals := Function.update s.locals t (.gaining o) }
  | gained {t : Thread} {o : Obj} {returned : List (Event Thread Obj)}
      (hl : (s.locals t).obj = some o) (hreturned : returned = [] ∨ returned = [.failed t o]) :
      Steps strategy s (.gained t o :: returned)
        { s with
          threadId := Function.update s.threadId o (gainedId (strategy o) (s.threadId o) t)
          locals := Function.update s.locals t .idle }

section Step

variable [Fintype Thread] [DecidableEq Obj] {strategy : Obj → TAOStrategy}
  {s s' : State Thread Obj} {a : Act Thread Obj} {es : List (Event Thread Obj)} {t : Thread}
  {o : Obj}

/-- A thread that goes on has another reference. -/
theorem inFlight_update (s : State Thread Obj) (slot : Option Obj)
    (threadId : Obj → ThreadId Thread) (t : Thread) (l : Local Obj) (o : Obj) :
    (⟨slot, threadId, Function.update s.locals t l⟩ : State Thread Obj).inFlight o +
        (if (s.locals t).obj = some o then 1 else 0) =
      s.inFlight o + (if l.obj = some o then 1 else 0) :=
  count_update_comp Local.obj s.locals t l

omit [DecidableEq Thread] in
/-- The reference of a call is pending. -/
theorem pending_pos (hl : (s.locals t).obj = some o) : 0 < s.pending o := by
  have hmem : t ∈ Finset.univ.filter fun u => (s.locals u).obj = some o :=
    Finset.mem_filter.mpr ⟨Finset.mem_univ t, hl⟩
  exact Nat.lt_add_left _ (Finset.card_pos.mpr ⟨t, hmem⟩)

/-- No other thread owns an object that is given up. -/
theorem gainThrows_eq_false (hs : s.Limbo strategy o) (hpos : 0 < s.pending o) :
    gainThrows (strategy o) (s.threadId o) t = false := by
  rcases hs with hknown | hid | hnone | ⟨_, hid⟩
  · simp [gainThrows, hknown]
  · simp [gainThrows, hid]
  · omega
  · simp [gainThrows, hid]

theorem steps_of_gain {returned : List (Event Thread Obj)} (hs : s.Limbo strategy o)
    (hl : (s.locals t).obj = some o) (hreturned : returned = [] ∨ returned = [.failed t o])
    (h : s.gain strategy t o returned = (es, s')) : Steps strategy s es s' := by
  rw [State.gain, gainThrows_eq_false hs (pending_pos hl)] at h
  obtain ⟨rfl, rfl⟩ := Prod.mk.inj h
  exact .gained hl hreturned

theorem steps_of_step (hs : ∀ o, s.Limbo strategy o) (h : s.step strategy a = some (es, s')) :
    Steps strategy s es s' := by
  cases a with
  | recycle t obj =>
    simp only [State.step] at h
    split at h
    next =>
      obtain ⟨rfl, rfl⟩ := Prod.mk.inj (Option.some.inj h)
      exact .nothing
    next hl =>
      split at h
      next haccess =>
        obtain ⟨rfl, rfl⟩ := Prod.mk.inj (Option.some.inj h)
        exact .relinquish hl haccess
      next => contradiction
    next => contradiction
  | acquire t =>
    simp only [State.step] at h
    split at h
    next =>
      obtain ⟨rfl, rfl⟩ := Prod.mk.inj (Option.some.inj h)
      exact .nothing
    next hl _ =>
      obtain ⟨rfl, rfl⟩ := Prod.mk.inj (Option.some.inj h)
      exact .goto (by rw [hl]; rfl)
    next => contradiction
  | cas t =>
    simp only [State.step] at h
    split at h
    next hl hslot =>
      obtain ⟨rfl, rfl⟩ := Prod.mk.inj (Option.some.inj h)
      exact .recycled hl hslot
    next hl _ =>
      obtain ⟨rfl, rfl⟩ := Prod.mk.inj (Option.some.inj h)
      exact .goto (by rw [hl]; rfl)
    next hl _ =>
      obtain ⟨rfl, rfl⟩ := Prod.mk.inj (Option.some.inj h)
      exact .goto (by rw [hl]; rfl)
    next hl hslot =>
      split at h
      next hactual =>
        subst hactual
        obtain ⟨rfl, rfl⟩ := Prod.mk.inj (Option.some.inj h)
        exact .acquired hl hslot
      next =>
        obtain ⟨rfl, rfl⟩ := Prod.mk.inj (Option.some.inj h)
        exact .goto (by rw [hl]; rfl)
    next => contradiction
  | gain t =>
    simp only [State.step] at h
    split at h
    next o hl =>
      exact steps_of_gain (hs o) (by rw [hl]; rfl) (.inr rfl) (Option.some.inj h)
    next o hl =>
      exact steps_of_gain (hs o) (by rw [hl]; rfl) (.inl rfl) (Option.some.inj h)
    next => contradiction

/-- A thread that goes on with the reference that it has changes no references. -/
theorem pending_goto {l : Local Obj} (hl : l.obj = (s.locals t).obj) :
    (s.goto t l).pending o = s.pending o := by
  have hcarried := inFlight_update s s.slot s.threadId t l o
  rw [hl] at hcarried
  exact congrArg (s.held o + ·) (Nat.add_right_cancel hcarried)

/-- A gain is reported once, whatever is returned behind it. -/
theorem reports_gained {p : Obj} {returned : List (Event Thread Obj)}
    (hreturned : returned = [] ∨ returned = [.failed t p]) :
    reports .gained (.gained t p :: returned) o = if p = o then 1 else 0 := by
  rcases hreturned with rfl | rfl
  · simp [reports, List.countP_cons]
  · simp [reports, List.countP_cons]

theorem reports_relinquished {p : Obj} {returned : List (Event Thread Obj)}
    (hreturned : returned = [] ∨ returned = [.failed t p]) :
    reports .relinquished (.gained t p :: returned) o = 0 := by
  rcases hreturned with rfl | rfl
  · simp [reports]
  · simp [reports]

/-- Every step accounts for the references. -/
theorem references_step (h : Steps strategy s es s') (o : Obj) :
    reports .relinquished es o + s.pending o = reports .gained es o + s'.pending o := by
  unfold State.pending
  cases h with
  | nothing => rfl
  | @relinquish t p hl =>
    have hcarried := inFlight_update s s.slot (s.relinquish strategy p) t (.recycling p) o
    by_cases hp : p = o
    · simp [hl, hp] at hcarried
      simp [reports, State.held, hp]
      omega
    · simp [hl, hp] at hcarried
      simp [reports, State.held, hp]
      omega
  | @recycled t p hl hslot =>
    have hcarried := inFlight_update s (some p) s.threadId t .idle o
    by_cases hp : p = o
    · simp [hl, hp] at hcarried
      simp [reports, State.held, hslot, hp]
      omega
    · simp [hl, hp] at hcarried
      simp [reports, State.held, hslot, hp]
      omega
  | goto hl => exact congrArg (0 + ·) (pending_goto hl).symm
  | @acquired t p hl hslot =>
    have hcarried := inFlight_update s none s.threadId t (.gaining p) o
    by_cases hp : p = o
    · simp [hl, hp] at hcarried
      simp [reports, State.held, hslot, hp]
      omega
    · simp [hl, hp] at hcarried
      simp [reports, State.held, hslot, hp]
      omega
  | @gained t p returned hl hreturned =>
    have hcarried := inFlight_update s s.slot
      (Function.update s.threadId p (gainedId (strategy p) (s.threadId p) t)) t .idle o
    rw [reports_gained hreturned, reports_relinquished hreturned]
    by_cases hp : p = o
    · simp [hl, hp] at hcarried
      simp [State.held, hp]
      omega
    · simp [hl, hp] at hcarried
      simp [State.held, hp]
      omega

/-- Every step accounts for what enters and leaves the slot. -/
theorem slot_step (h : Steps strategy s es s') (o : Obj) :
    reports .recycled es o + s.held o = reports .acquired es o + s'.held o ∧
      (turns es o = [] ∧ (s'.slot = some o ↔ s.slot = some o) ∨
        ∃ b, turns es o = [b] ∧ (s.slot = some o ↔ b = false) ∧ (s'.slot = some o ↔ b = true)) := by
  cases h with
  | nothing | relinquish => simp [reports, turns, State.held]
  | goto => exact ⟨rfl, .inl ⟨rfl, Iff.rfl⟩⟩
  | @recycled t p hl hslot =>
    by_cases hp : p = o
    · simp [reports, turns, State.held, hslot, hp]
    · simp [reports, turns, State.held, hslot, hp]
  | @acquired t p hl hslot =>
    by_cases hp : p = o
    · simp [reports, turns, State.held, hslot, hp]
    · simp [reports, turns, State.held, hslot, hp]
  | @gained t p returned hl hreturned =>
    rcases hreturned with rfl | rfl
    · simp [reports, turns, State.held]
    · simp [reports, turns, State.held]

omit [Fintype Thread] in
/-- The thread ids of the other objects stay. -/
theorem relinquish_of_ne {p : Obj} (hne : o ≠ p) :
    s.relinquish strategy p o = s.threadId o := by
  unfold State.relinquish
  cases removal (strategy p) (s.threadId p) with
  | none => rfl
  | some _ => exact Function.update_of_ne hne _ _

omit [Fintype Thread] in
/-- An object that is not thread safe has no thread behind a relinquish. -/
theorem relinquish_self (hknown : ¬(strategy o).IsKnownThreadSafe)
    (hid : s.threadId o ≠ .isThreadsafe) : s.relinquish strategy o o = .hasNoThread := by
  unfold State.relinquish
  cases hremoval : removal (strategy o) (s.threadId o) with
  | none => exact absurd hremoval (removal_ne_none hid hknown)
  | some _ => exact Function.update_self _ _ _

omit [Fintype Thread] in
/-- A thread safe object stays so. -/
theorem relinquish_of_isThreadsafe (hid : s.threadId o = .isThreadsafe) :
    s.relinquish strategy o o = .isThreadsafe := by
  rw [State.relinquish, hid, removal_of_isThreadsafe]
  exact hid

omit [DecidableEq Thread] in
/-- An object whose references and whose thread id stay. -/
theorem limbo_of_eq (hs : s.Limbo strategy o) (hpending : s'.pending o = s.pending o)
    (hid : s'.threadId o = s.threadId o) : s'.Limbo strategy o := by
  unfold State.Limbo
  rw [hpending, hid]
  exact hs

omit [DecidableEq Thread] in
/-- An object that a thread owns is not given up. -/
theorem pending_eq_zero (hs : s.Limbo strategy o) (hknown : ¬(strategy o).IsKnownThreadSafe)
    (hid : s.threadId o = .thread t) : s.pending o = 0 := by
  rcases hs with hsafe | hsafe | hzero | ⟨_, hnone⟩
  · exact absurd hsafe hknown
  · simp [hid] at hsafe
  · exact hzero
  · simp [hid] at hnone

/-- An object that is not thread safe is given up once at a time. -/
theorem limbo_step (hs : s.Limbo strategy o) (h : Steps strategy s es s') :
    s'.Limbo strategy o := by
  have hpending := references_step h o
  by_cases hknown : (strategy o).IsKnownThreadSafe
  · exact .inl hknown
  cases h with
  | nothing => exact hs
  | goto hl => exact limbo_of_eq hs (pending_goto hl) rfl
  | recycled | acquired =>
    simp [reports] at hpending
    exact limbo_of_eq hs hpending.symm rfl
  | @relinquish t p hl haccess =>
    by_cases hp : o = p
    · subst hp
      rcases haccess with hsafe | hsafe | hid
      · exact absurd hsafe hknown
      · exact .inr (.inl (relinquish_of_isThreadsafe hsafe))
      · -- The owner has given up what it had not given up yet.
        have hzero := pending_eq_zero hs hknown hid
        simp [reports, hzero] at hpending
        exact .inr (.inr (.inr ⟨by omega, relinquish_self hknown (by simp [hid])⟩))
    · simp [reports, Ne.symm hp] at hpending
      exact limbo_of_eq hs hpending.symm (relinquish_of_ne hp)
  | @gained t p returned hl hreturned =>
    by_cases hp : o = p
    · subst hp
      have hpos := pending_pos hl
      rw [reports_gained hreturned, reports_relinquished hreturned, if_pos rfl] at hpending
      rcases hs with hsafe | hsafe | hzero | ⟨hone, _⟩
      · exact absurd hsafe hknown
      · exact .inr (.inl (by simp [hsafe, gainedId_of_isThreadsafe]))
      · omega
      · exact .inr (.inr (.inl (by omega)))
    · rw [reports_gained hreturned, reports_relinquished hreturned, if_neg (Ne.symm hp)] at hpending
      exact limbo_of_eq hs (by omega) (Function.update_of_ne hp _ _)

omit [Fintype Thread] in
/-- A thread that gains an object has access to it. -/
theorem hasAccess_gained (h : Steps strategy s es s')
    (he : .gained t o ∈ es ∨ .failed t o ∈ es) : HasAccess (strategy o) (s'.threadId o) t := by
  cases h with
  | nothing | relinquish | recycled | goto | acquired => simp at he
  | @gained u p returned hl hreturned =>
    obtain ⟨rfl, rfl⟩ : t = u ∧ o = p := by
      rcases hreturned with rfl | rfl
      · simpa using he
      · simpa using he
    by_cases hknown : (strategy o).IsKnownThreadSafe
    · exact .inl hknown
    by_cases hid : s.threadId o = .isThreadsafe
    · exact .inr (.inl (by simp [hid, gainedId_of_isThreadsafe]))
    · exact .inr (.inr (by simp [gainedId_eq hid hknown]))

/-- A thread keeps its access as long as nobody relinquishes the object. -/
theorem hasAccess_step (hs : s.Limbo strategy o) (h : Steps strategy s es s')
    (haccess : HasAccess (strategy o) (s.threadId o) t)
    (hes : ∀ u, .relinquished u o ∉ es) : HasAccess (strategy o) (s'.threadId o) t := by
  cases h with
  | nothing | recycled | goto | acquired => exact haccess
  | @relinquish u p hl =>
    have hp : o ≠ p := fun hp => hes u (by simp [hp])
    have hsame : s.relinquish strategy p o = s.threadId o := relinquish_of_ne hp
    exact (congrArg (HasAccess (strategy o) · t) hsame).mpr haccess
  | @gained u p returned hl hreturned =>
    by_cases hp : o = p
    · subst hp
      rcases haccess with hknown | hid | hid
      · exact .inl hknown
      · exact .inr (.inl (by simp [hid, gainedId_of_isThreadsafe]))
      · by_cases hknown : (strategy o).IsKnownThreadSafe
        · exact .inl hknown
        · have hpos := pending_pos hl
          have hzero := pending_eq_zero hs hknown hid
          omega
    · have hsame : Function.update s.threadId p (gainedId (strategy p) (s.threadId p) u) o =
          s.threadId o := Function.update_of_ne hp _ _
      exact (congrArg (HasAccess (strategy o) · t) hsame).mpr haccess

end Step

section Run

variable [Fintype Thread] [DecidableEq Obj] {strategy : Obj → TAOStrategy}
  {s s' : State Thread Obj} {es fs : List (Event Thread Obj)}

theorem reports_append (event : Thread → Obj → Event Thread Obj) (es fs : List (Event Thread Obj))
    (o : Obj) : reports event (es ++ fs) o = reports event es o + reports event fs o :=
  List.countP_append

omit [Fintype Thread] in
theorem thrown_step {t : Thread} {o : Obj} (h : Steps strategy s fs s') : .thrown t o ∉ fs := by
  cases h with
  | nothing | relinquish | recycled | goto | acquired => simp
  | gained hl hreturned =>
    rcases hreturned with rfl | rfl
    · simp
    · simp

/-- An object that enters the slot or leaves it takes the next turn. -/
theorem takesTurns_step {o : Obj} (hs : TakesTurns s es o) (h : Steps strategy s fs s') :
    TakesTurns s' (es ++ fs) o := by
  obtain ⟨hchain, hlast⟩ := hs
  have happend : turns (es ++ fs) o = turns es o ++ turns fs o := List.filterMap_append
  rcases (slot_step h o).2 with ⟨hnone, hslot⟩ | ⟨b, hb, hslot, hslot'⟩
  · unfold TakesTurns
    rw [happend, hnone, List.append_nil]
    refine ⟨hchain, ?_⟩
    simpa only [hslot] using hlast
  · unfold TakesTurns
    rw [happend, hb, ← List.cons_append]
    constructor
    · refine hchain.append (List.isChain_singleton b) ?_
      rintro x hx y hy rfl
      obtain rfl : decide (s.slot = some o) = x := Option.some.inj (hlast.symm.trans hx)
      obtain rfl : b = decide (s.slot = some o) := Option.some.inj hy
      by_cases hin : s.slot = some o
      · simp [hin] at hslot
      · simp [hin] at hslot
    · rw [List.getLast?_append]
      by_cases hin : s'.slot = some o
      · simp [hslot'.mp hin, hin]
      · have hb' : b = false := by simpa [hin] using hslot'
        simp [hb', hin]

/-- One more step of a run. -/
theorem handedOver_step (hs : HandedOver strategy s es) (h : Steps strategy s fs s') :
    HandedOver strategy s' (es ++ fs) where
  recycled o := by
    have hold := hs.recycled o
    have hnew := (slot_step h o).1
    rw [reports_append, reports_append]
    omega
  turns o := takesTurns_step (hs.turns o) h
  references o := by
    have hold := hs.references o
    have hnew := references_step h o
    unfold State.pending at hnew
    rw [reports_append, reports_append]
    omega
  thrown t o hmem := by
    rcases List.mem_append.mp hmem with hmem | hmem
    · exact hs.thrown t o hmem
    · exact thrown_step h hmem
  accessible t o e back front he hes hfront := by
    have hnew (hmem : e ∈ fs) : HasAccess (strategy o) (s'.threadId o) t := by
      refine hasAccess_gained h ?_
      rcases he with rfl | rfl
      · exact .inl hmem
      · exact .inr hmem
    -- The gain is in this step, or it was in front of it.
    rcases List.append_eq_append_iff.mp hes with ⟨mid, _, hfs⟩ | ⟨mid, hback, hmid⟩
    · exact hnew (by simp [hfs])
    · cases mid with
      | nil =>
        rw [List.nil_append] at hmid
        exact hnew (by simp [← hmid])
      | cons d mid =>
        obtain ⟨rfl, rfl⟩ := List.cons.inj hmid
        have hold := hs.accessible t o e back mid he hback fun u hu =>
          hfront u (List.mem_append_left fs hu)
        exact hasAccess_step (hs.limbo o) h hold fun u hu => hfront u (List.mem_append_right mid hu)
  limbo o := limbo_step (hs.limbo o) h

variable {threadId : Obj → ThreadId Thread}

omit [DecidableEq Thread] in
theorem pending_init (threadId : Obj → ThreadId Thread) (o : Obj) :
    (State.init threadId).pending o = 0 := by
  have hnone : (State.init threadId).inFlight o = 0 := count_eq_zero fun t _ => by simp [State.init]
  rw [State.pending, hnone]
  rfl

/-- In every run of recycles and acquires the objects and their references are handed over. -/
theorem handedOver_of_run (hrun : Run (State.step strategy) (.init threadId) es s) :
    HandedOver strategy s es := by
  refine hrun.invariant_trace (fun es s => HandedOver strategy s es) ?_ ?_
  · intro r a es fs r' _ hr hstep
    exact handedOver_step hr (steps_of_step hr.limbo hstep)
  · constructor
    case recycled => exact fun _ => rfl
    case turns => exact fun _ => ⟨List.isChain_singleton false, rfl⟩
    case references =>
      intro o
      rw [Nat.add_assoc]
      exact (congrArg (0 + ·) (pending_init threadId o)).symm
    case thrown => exact fun t o hmem => nomatch hmem
    case accessible =>
      intro t o e back front _ hes
      simp at hes
    case limbo => exact fun o => .inr (.inr (.inl (pending_init threadId o)))

end Run

/-- A thread recycles two objects, and the second recycle fails. Another thread acquires the
first object and recycles it again. -/
theorem recycled_again : ∃ es, ∃ s : State Bool Bool,
    HandedOver (fun _ => .callerRemovesFromCurrentPool) s es ∧ s.slot = some true ∧
      es = [.relinquished false true, .recycled false true, .relinquished false false,
        .gained false false, .failed false false, .acquired true true, .gained true true,
        .relinquished true true, .recycled true true] := by
  have hrun := run_of_exec (State.step fun _ => .callerRemovesFromCurrentPool)
    (.init fun _ : Bool => .thread false)
    [.recycle false (some true), .cas false, .recycle false (some false), .acquire true, .cas false,
      .gain false, .cas true, .gain true, .recycle true (some true), .cas true] rfl
  exact ⟨_, _, handedOver_of_run hrun, rfl, rfl⟩

end MulleObjC.Access.Recycle
