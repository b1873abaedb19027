import MulleObjC.ConditionLock.Calls

/-!
# Safety of an NSConditionLock

The mutex belongs to the thread whose position says so. Only that thread writes
`_currentCondition`, and it broadcasts before it unlocks. So a thread that waits for a
condition that is met waits for the broadcast of the thread that has the mutex.
-/

namespace MulleObjC.ConditionLock

open Machine

variable {Thread : Type*}

/-- What the position of a thread tells about the condition and about notifications. -/
def Position.Sound (currentCondition : BitVec 64) : Position → Prop
  | .enterWait wanted => wanted.met currentCondition = false
  | .write _ broadcast | .notify broadcast => broadcast = true
  | _ => True

/-- A thread has the lock between the return of a locking method and the next unlock. -/
def State.Holds (s : State Thread) (t : Thread) : Prop := (s.position t).holds = true

/-- The invariant of all runs in which every notification is a broadcast. -/
structure State.Coherent (s : State Thread) : Prop where
  owner_iff : ∀ t, s.owner = some t ↔ s.Holds t
  sound : ∀ t, (s.position t).Sound s.currentCondition
  wait : ∀ t wanted, s.position t = .wait wanted → wanted.met s.currentCondition = true →
    ∃ u, s.position u = .notify true

/-- The end of a wait takes no mutex. -/
theorem Position.holds_woken (p : Position) : p.woken.holds = p.holds := by
  cases p <;> rfl

/-- Nobody waits behind a wakeup. -/
theorem Position.woken_ne_wait (p : Position) (wanted : Wanted) : p.woken ≠ .wait wanted := by
  cases p <;> simp [Position.woken]

/-- The end of a wait tells nothing new. -/
theorem Position.Sound.woken {currentCondition : BitVec 64} {p : Position}
    (h : p.Sound currentCondition) : p.woken.Sound currentCondition := by
  cases p <;> exact h

namespace State

variable {s : State Thread} {t : Thread}

/-- One thread has the lock at a time. -/
theorem Coherent.eq_of_holds (h : s.Coherent) {u : Thread} (ht : s.Holds t) (hu : s.Holds u) :
    t = u := by
  have howner := (h.owner_iff t).mpr ht
  rw [(h.owner_iff u).mpr hu] at howner
  exact (Option.some.inj howner).symm

/-- A new lock. -/
theorem coherent_initWithCondition (value : BitVec 64) :
    (initWithCondition value : State Thread).Coherent where
  owner_iff t := by simp [initWithCondition, Holds, Position.holds]
  sound t := trivial
  wait t wanted hwait := by simp [initWithCondition] at hwait

/-- A method starts where its caller has the lock or has it not. -/
theorem enter_eq_some {held : Bool} {m : Method} {p : Position} (h : m.enter held = some p)
    (hbroadcast : Broadcasts (t, .call m)) (currentCondition : BitVec 64) :
    p.holds = held ∧ p.Sound currentCondition ∧ ∀ wanted, p ≠ .wait wanted := by
  cases m <;> simp only [Method.enter, Option.some.injEq, Option.ite_none_right_eq_some] at h
  case unlock | unlockWithCondition =>
    obtain ⟨rfl, rfl⟩ := h
    simp [Position.holds, Position.Sound]
  case mulleUnlockWithCondition =>
    obtain ⟨rfl, rfl⟩ := h
    exact ⟨rfl, hbroadcast, by simp⟩
  all_goals
    subst h
    simp [Position.holds, Position.Sound]

variable [DecidableEq Thread]

/-- One thread goes on and the condition stays. -/
theorem Coherent.move (h : s.Coherent) {owner : Option Thread} {p : Position}
    (hsound : p.Sound s.currentCondition) (howner : owner = some t ↔ p.holds = true)
    (hothers : ∀ u, u ≠ t → (owner = some u ↔ s.owner = some u))
    (hnotify : s.position t ≠ .notify true)
    (hwait : ∀ wanted, p = .wait wanted → wanted.met s.currentCondition = false) :
    (s.move t owner p).Coherent := by
  constructor
  · intro u
    by_cases hu : u = t
    · subst hu
      simpa [State.move, Holds] using howner
    · have hold := (hothers u hu).trans (h.owner_iff u)
      simpa [State.move, Holds, hu] using hold
  · intro u
    by_cases hu : u = t
    · subst hu
      simpa [State.move] using hsound
    · simpa [State.move, hu] using h.sound u
  · intro u wanted hpos hmet
    by_cases hu : u = t
    · subst hu
      have hunmet := hwait wanted (by simpa [State.move] using hpos)
      exact absurd hmet (by simp [State.move, hunmet])
    · obtain ⟨v, hv⟩ := h.wait u wanted (by simpa [State.move, hu] using hpos) hmet
      have hvt : v ≠ t := by
        rintro rfl
        exact hnotify hv
      exact ⟨v, by simpa [State.move, hvt] using hv⟩

/-- A thread goes on without locking or unlocking the mutex. -/
theorem Coherent.keep (h : s.Coherent) {p : Position} (hsound : p.Sound s.currentCondition)
    (hholds : p.holds = (s.position t).holds) (hnotify : s.position t ≠ .notify true)
    (hwait : ∀ wanted, p ≠ .wait wanted) : (s.move t s.owner p).Coherent := by
  refine h.move hsound ?_ (fun _ _ => Iff.rfl) hnotify fun wanted hp => absurd hp (hwait wanted)
  rw [hholds]
  exact h.owner_iff t

/-- A thread locks the mutex. -/
theorem Coherent.take (h : s.Coherent) {p : Position} (hfree : s.owner = none)
    (hsound : p.Sound s.currentCondition) (hholds : p.holds = true)
    (hnotify : s.position t ≠ .notify true) (hwait : ∀ wanted, p ≠ .wait wanted) :
    (s.move t (some t) p).Coherent := by
  refine h.move hsound (by simp [hholds]) (fun u hu => ?_) hnotify
    fun wanted hp => absurd hp (hwait wanted)
  simp [hfree, Ne.symm hu]

/-- A thread unlocks the mutex. -/
theorem Coherent.drop (h : s.Coherent) {p : Position} (hheld : s.Holds t)
    (hsound : p.Sound s.currentCondition) (hholds : p.holds = false)
    (hnotify : s.position t ≠ .notify true)
    (hwait : ∀ wanted, p = .wait wanted → wanted.met s.currentCondition = false) :
    (s.move t none p).Coherent := by
  refine h.move hsound (by simp [hholds]) (fun u hu => ?_) hnotify hwait
  have howner := (h.owner_iff t).mpr hheld
  simp [howner, Ne.symm hu]

/-- The thread that has the mutex writes the condition. -/
theorem Coherent.write (h : s.Coherent) {value : BitVec 64} {broadcast : Bool}
    (hpos : s.position t = .write value broadcast) :
    State.Coherent { s.move t s.owner (.notify broadcast) with currentCondition := value } := by
  have hholds : s.Holds t := by simp [Holds, hpos, Position.holds]
  have hbroadcast : broadcast = true := by
    have := h.sound t
    rwa [hpos] at this
  constructor
  · intro u
    by_cases hu : u = t
    · subst hu
      simpa [State.move, Holds, Position.holds] using (h.owner_iff u).mpr hholds
    · simpa [State.move, Holds, hu] using h.owner_iff u
  · intro u
    by_cases hu : u = t
    · subst hu
      simpa [State.move, Position.Sound] using hbroadcast
    · -- A thread that enters the wait would have the mutex too.
      have hsound := h.sound u
      have hother : ¬ s.Holds u := fun huh => hu (h.eq_of_holds huh hholds)
      simp only [State.move, Function.update_of_ne hu]
      cases hq : s.position u with
      | enterWait wanted => exact absurd (by simp [Holds, hq, Position.holds]) hother
      | write _ _ => simpa [hq, Position.Sound] using hsound
      | notify _ => simpa [hq, Position.Sound] using hsound
      | _ => trivial
  · intro u wanted _ _
    exact ⟨t, by simp [State.move, hbroadcast]⟩

/-- A broadcast ends all waits. -/
theorem Coherent.broadcast (h : s.Coherent) (hpos : s.position t = .notify true) :
    State.Coherent
      { s with position := Function.update (fun u => (s.position u).woken) t .unlock } := by
  constructor
  · intro u
    rw [h.owner_iff u]
    by_cases hu : u = t
    · subst hu
      simp [Holds, hpos, Position.holds]
    · simp [Holds, hu, Position.holds_woken]
  · intro u
    by_cases hu : u = t
    · subst hu
      simp [Position.Sound]
    · simpa [hu] using (h.sound u).woken
  · intro u wanted hwait
    by_cases hu : u = t
    · subst hu
      simp at hwait
    · simp only [Function.update_of_ne hu] at hwait
      exact absurd hwait (Position.woken_ne_wait _ _)

/-- What a step of a method can do. -/
inductive Proceeds (s : State Thread) (t : Thread) : List (Event Thread) → State Thread → Prop
  | lock {held : Bool} (hpos : s.position t = .lock held .any) (hfree : s.owner = none) :
    Proceeds s t [.locked t .any] (s.move t (some t) (.outside true))
  | lockTest {wanted : Wanted}
    (hpos : (∃ held, s.position t = .lock held wanted) ∨ s.position t = .wakeup wanted)
    (hfree : s.owner = none) : Proceeds s t [] (s.move t (some t) (.test wanted))
  | met {wanted : Wanted} (hpos : s.position t = .test wanted)
    (hmet : wanted.met s.currentCondition = true) :
    Proceeds s t [.locked t wanted] (s.move t s.owner (.outside true))
  | unmet {wanted : Wanted} (hpos : s.position t = .test wanted)
    (hmet : wanted.met s.currentCondition = false) :
    Proceeds s t [] (s.move t s.owner (.enterWait wanted))
  | wait {wanted : Wanted} (hpos : s.position t = .enterWait wanted) :
    Proceeds s t [] (s.move t none (.wait wanted))
  | tryLock {held : Bool} (hpos : s.position t = .tryLock held .any) (hfree : s.owner = none) :
    Proceeds s t [.tried t held .any true] (s.move t (some t) (.outside true))
  | tryLockTest {held : Bool} {wanted : Wanted} (hpos : s.position t = .tryLock held wanted)
    (hfree : s.owner = none) : Proceeds s t [] (s.move t (some t) (.tryTest wanted))
  | busy {held : Bool} {wanted : Wanted} (hpos : s.position t = .tryLock held wanted) :
    Proceeds s t [.tried t held wanted false] (s.move t s.owner (.outside held))
  | tryMet {wanted : Wanted} (hpos : s.position t = .tryTest wanted)
    (hmet : wanted.met s.currentCondition = true) :
    Proceeds s t [.tried t false wanted true] (s.move t s.owner (.outside true))
  | tryUnmet {wanted : Wanted} (hpos : s.position t = .tryTest wanted) :
    Proceeds s t [] (s.move t s.owner (.tryUnlock wanted))
  | tryUnlock {wanted : Wanted} (hpos : s.position t = .tryUnlock wanted) :
    Proceeds s t [.tried t false wanted false] (s.move t none (.outside false))
  | write {value : BitVec 64} {broadcast : Bool} (hpos : s.position t = .write value broadcast) :
    Proceeds s t [] { s.move t s.owner (.notify broadcast) with currentCondition := value }
  | broadcast (hpos : s.position t = .notify true) :
    Proceeds s t []
      { s with position := Function.update (fun u => (s.position u).woken) t .unlock }
  | unlock (hpos : s.position t = .unlock) :
    Proceeds s t [.unlocked t] (s.move t none (.outside false))

/-- The cases of `State.proceed`. -/
theorem proceeds_of_proceed {es : List (Event Thread)} {s' : State Thread}
    (hstep : s.proceed t = some (es, s')) : Proceeds s t es s' := by
  unfold State.proceed at hstep
  split at hstep
  case h_1 | h_2 | h_3 => cases hstep
  case h_4 hpos =>
    obtain ⟨hfree, h⟩ := Option.ite_none_right_eq_some.mp hstep
    cases h
    exact .lock hpos hfree
  case h_5 hpos =>
    obtain ⟨hfree, h⟩ := Option.ite_none_right_eq_some.mp hstep
    cases h
    exact .lockTest (.inl ⟨_, hpos⟩) hfree
  case h_6 hpos =>
    obtain ⟨hfree, h⟩ := Option.ite_none_right_eq_some.mp hstep
    cases h
    exact .lockTest (.inr hpos) hfree
  case h_7 hpos =>
    split at hstep
    · cases hstep
      exact .met hpos ‹_›
    · cases hstep
      exact .unmet hpos (Bool.eq_false_iff.mpr ‹_›)
  case h_8 hpos =>
    cases hstep
    exact .wait hpos
  case h_9 hpos =>
    split at hstep
    · rename_i hfree
      split at hstep
      · cases hstep
        exact .tryLock hpos hfree
      · cases hstep
        exact .tryLockTest hpos hfree
    · cases hstep
      exact .busy hpos
  case h_10 hpos =>
    split at hstep
    · cases hstep
      exact .tryMet hpos ‹_›
    · cases hstep
      exact .tryUnmet hpos
  case h_11 hpos =>
    cases hstep
    exact .tryUnlock hpos
  case h_12 hpos =>
    cases hstep
    exact .write hpos
  case h_13 hpos =>
    cases hstep
    exact .broadcast hpos
  case h_14 hpos =>
    cases hstep
    exact .unlock hpos

/-- A step of a method. -/
theorem Coherent.proceed (h : s.Coherent) {es : List (Event Thread)} {s' : State Thread}
    (hstep : s.proceed t = some (es, s')) : s'.Coherent := by
  cases proceeds_of_proceed hstep with
  | lock hpos hfree | tryLock hpos hfree | tryLockTest hpos hfree =>
    exact h.take hfree trivial rfl (by simp [hpos]) (by simp)
  | lockTest hpos hfree =>
    refine h.take hfree trivial rfl ?_ (by simp)
    rcases hpos with ⟨held, hpos⟩ | hpos <;> simp [hpos]
  | met hpos | busy hpos | tryMet hpos | tryUnmet hpos =>
    exact h.keep trivial (by simp [hpos, Position.holds]) (by simp [hpos]) (by simp)
  | unmet hpos hmet =>
    exact h.keep hmet (by simp [hpos, Position.holds]) (by simp [hpos]) (by simp)
  | @wait wanted hpos =>
    -- The condition was read under the mutex and is still unmet.
    have hunmet : wanted.met s.currentCondition = false := by
      have hsound := h.sound t
      rwa [hpos] at hsound
    refine h.drop (by simp [Holds, hpos, Position.holds]) trivial rfl (by simp [hpos]) ?_
    rintro _ ⟨⟩
    exact hunmet
  | tryUnlock hpos | unlock hpos =>
    exact h.drop (by simp [Holds, hpos, Position.holds]) trivial rfl (by simp [hpos]) (by simp)
  | write hpos => exact h.write hpos
  | broadcast hpos => exact h.broadcast hpos

/-- A step. -/
theorem Coherent.step (h : s.Coherent) {a : Act Thread} {es : List (Event Thread)}
    {s' : State Thread} (hbroadcast : Broadcasts (t, a)) (hstep : s.step (t, a) = some (es, s')) :
    s'.Coherent := by
  cases a with
  | call m =>
    cases hpos : s.position t with
    | outside held =>
      simp only [State.step, hpos, Option.map_eq_some_iff, Prod.mk.injEq] at hstep
      obtain ⟨p, henter, -, rfl⟩ := hstep
      obtain ⟨hholds, hsound, hwait⟩ := enter_eq_some henter hbroadcast s.currentCondition
      exact h.keep hsound (by rw [hholds, hpos]; rfl) (by simp [hpos]) hwait
    | _ => simp [State.step, hpos] at hstep
  | proceed => exact h.proceed hstep
  | signal picked =>
    -- Nobody signals if every notification is a broadcast.
    have hsound := h.sound t
    cases hpos : s.position t with
    | notify broadcast =>
      rw [hpos] at hsound
      subst hsound
      simp [State.step, hpos] at hstep
    | _ => simp [State.step, hpos] at hstep
  | spurious =>
    cases hpos : s.position t with
    | wait wanted =>
      simp only [State.step, hpos, Option.some.injEq, Prod.mk.injEq] at hstep
      obtain ⟨-, rfl⟩ := hstep
      exact h.keep trivial (by simp [hpos, Position.holds]) (by simp [hpos]) (by simp)
    | _ => simp [State.step, hpos] at hstep

/-- A run. -/
theorem coherent_of_run {value : BitVec 64} {es : List (Event Thread)}
    (hrun : RunWhile State.step (fun _ a => Broadcasts a) (initWithCondition value) es s) :
    s.Coherent :=
  hrun.invariant Coherent (fun hbroadcast h hstep => h.step hbroadcast hstep)
    (coherent_initWithCondition value)

/-- What a method has done when it returns. -/
def Returned (s : State Thread) : Event Thread → Prop
  | .locked t wanted | .tried t _ wanted true =>
    s.Holds t ∧ wanted.met s.currentCondition = true
  | .tried t held _ false => s.Holds t ↔ held = true
  | .unlocked t => ¬ s.Holds t

/-- Methods return and write the condition by steps of their own. -/
theorem step_eq_some {a : Act Thread} {es : List (Event Thread)} {s' : State Thread}
    (hstep : s.step (t, a) = some (es, s')) :
    (a = .proceed ∧ Proceeds s t es s') ∨ (es = [] ∧ s'.currentCondition = s.currentCondition) := by
  cases a with
  | call m =>
    cases hpos : s.position t with
    | outside held =>
      simp only [State.step, hpos, Option.map_eq_some_iff, Prod.mk.injEq] at hstep
      obtain ⟨p, -, hes, rfl⟩ := hstep
      exact .inr ⟨hes.symm, rfl⟩
    | _ => simp [State.step, hpos] at hstep
  | proceed => exact .inl ⟨rfl, proceeds_of_proceed hstep⟩
  | signal picked =>
    simp only [State.step] at hstep
    split at hstep <;> cases hstep
    exact .inr ⟨rfl, rfl⟩
  | spurious =>
    simp only [State.step] at hstep
    split at hstep <;> cases hstep
    exact .inr ⟨rfl, rfl⟩

/-- A method that returns has done what its name says. -/
theorem returned_of_step {a : Act Thread} {es : List (Event Thread)} {s' : State Thread}
    (hstep : s.step (t, a) = some (es, s')) : ∀ e ∈ es, s'.Returned e := by
  rcases step_eq_some hstep with ⟨-, hproceeds⟩ | ⟨rfl, -⟩
  · cases hproceeds with
    | lock | tryLock | busy | tryUnlock | unlock =>
      simp [Returned, Holds, State.move, Position.holds, Wanted.met]
    | met _ hmet | tryMet _ hmet => simpa [Returned, Holds, State.move, Position.holds] using hmet
    | lockTest | unmet | wait | tryLockTest | tryUnmet | write | broadcast => simp
  · simp

/-- A try leaves the condition alone. -/
theorem currentCondition_of_isTry {a : Act Thread} {es : List (Event Thread)} {s' : State Thread}
    (hstep : s.step (t, a) = some (es, s')) (htry : (s.position t).isTry = true) :
    s'.currentCondition = s.currentCondition := by
  rcases step_eq_some hstep with ⟨-, hproceeds⟩ | ⟨-, hsame⟩
  · cases hproceeds with
    | write hpos => simp [hpos, Position.isTry] at htry
    | _ => rfl
  · exact hsame

end State

variable [DecidableEq Thread]

/-- In every run in which every notification is a broadcast one thread has the lock at a time,
a locking method returns with the lock and with the condition that it wants, a try that fails
leaves the lock and the condition as they were, and if the lock is free then nobody waits for a
condition that is met. -/
theorem safe_of_run {value : BitVec 64} {es : List (Event Thread)} {s : State Thread}
    (hrun : RunWhile State.step (fun _ a => Broadcasts a) (.initWithCondition value) es s) :
    (∀ t u, s.Holds t → s.Holds u → t = u) ∧
    (∀ t a fs s', s.step (t, a) = some (fs, s') →
      (∀ e ∈ fs, s'.Returned e) ∧
      ((s.position t).isTry = true → s'.currentCondition = s.currentCondition)) ∧
    (s.owner = none → ∀ t wanted, s.position t = .wait wanted →
      wanted.met s.currentCondition = false) := by
  have hcoherent := State.coherent_of_run hrun
  refine ⟨fun t u ht hu => hcoherent.eq_of_holds ht hu, fun t a fs s' hstep => ?_,
    fun hfree t wanted hwait => ?_⟩
  · exact ⟨State.returned_of_step hstep, State.currentCondition_of_isTry hstep⟩
  · by_contra hmet
    obtain ⟨u, hu⟩ := hcoherent.wait t wanted hwait (by simpa using hmet)
    have howner := (hcoherent.owner_iff u).mpr (by simp [State.Holds, hu, Position.holds])
    rw [hfree] at howner
    cases howner

/-- A thread waits for a condition, and another thread that has the lock fulfills it. -/
theorem safe_of_run_lockWhenCondition : ∃ (es : List (Event Bool)) (s : State Bool),
    RunWhile State.step (fun _ a => Broadcasts a) (.initWithCondition 0) es s ∧
    s.owner = none ∧ s.currentCondition = 1 ∧ s.position false = .wakeup (.whenCondition 1) ∧
    (s.owner = none → ∀ t wanted, s.position t = .wait wanted →
      wanted.met s.currentCondition = false) := by
  have hrun : RunWhile State.step (fun _ a => Broadcasts a) (.initWithCondition 0) _ _ :=
    runWhile_of_exec [(false, .call (.lockWhenCondition 1)), (false, .proceed), (false, .proceed),
      (false, .proceed), (true, .call .lock), (true, .proceed),
      (true, .call (.unlockWithCondition 1)), (true, .proceed), (true, .proceed),
      (true, .proceed)] (by simp [Broadcasts]) rfl
  exact ⟨_, _, hrun, rfl, rfl, rfl, (safe_of_run hrun).2.2⟩

/-- A thread that has the lock tries it again, fails and has the lock. -/
theorem tryLockWhenCondition_of_held : ∃ (es : List (Event Bool)) (s s' : State Bool),
    RunWhile State.step (fun _ a => Broadcasts a) (.initWithCondition 0) es s ∧
    s.step (true, .proceed) = some ([.tried true true (.whenCondition 1) false], s') ∧
    s'.Holds true := by
  have hrun : RunWhile State.step (fun _ a => Broadcasts a) (.initWithCondition 0) _ _ :=
    runWhile_of_exec [(true, .call .lock), (true, .proceed),
      (true, .call (.tryLockWhenCondition 1))] (by simp [Broadcasts]) rfl
  exact ⟨_, _, _, hrun, rfl, rfl⟩

end MulleObjC.ConditionLock
