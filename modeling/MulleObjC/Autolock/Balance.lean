import MulleObjC.Autolock.Exclusion
import MulleObjC.Library.LockTrace

/-!
# Locks are unlocked as they were locked

A call unlocks the lock that it read, whatever became of the lock of the object. So the
locks a thread has to unlock are on its stack of calls, and a call that returns leaves
every lock as deep as it was.
-/

namespace MulleObjC.Autolock

open Machine

variable {Thread Obj Lock : Type*}

/-- The lock that a call will unlock. -/
def Frame.held (F : Frame Obj Lock) : Option Lock :=
  match F.stage with
  | .inside lock => lock
  | _ => none

/-- The locks that calls will unlock, the innermost first. -/
def locksOf (stack : List (Frame Obj Lock)) : List Lock := stack.filterMap Frame.held

/-- What a thread did to locks. -/
def eventsOf [DecidableEq Thread] (t : Thread) (es : List (Thread × LockEvent Lock)) :
    List (LockEvent Lock) :=
  es.filterMap fun e => if e.1 = t then some e.2 else none

theorem eventsOf_append [DecidableEq Thread] (t : Thread) (es fs : List (Thread × LockEvent Lock)) :
    eventsOf t (es ++ fs) = eventsOf t es ++ eventsOf t fs := List.filterMap_append

/-- What a thread did to a lock that can be `nil`. -/
theorem eventsOf_map [DecidableEq Thread] {t u : Thread} (event : Lock → LockEvent Lock)
    (lock : Option Lock) : eventsOf u (lock.toList.map fun l => (t, event l)) =
      if u = t then lock.toList.map event else [] := by
  by_cases hu : u = t
  · subst hu
    cases lock <;> simp [eventsOf]
  · cases lock <;> simp [eventsOf, hu, Ne.symm hu]

theorem Frame.held_dispatched {o : Obj} {m : Message Obj Lock} {i : Implementation} :
    (Frame.dispatched o m i).held = none := by
  cases i <;> rfl

namespace State

variable {s s' : State Thread Obj Lock} {t : Thread}

/-- What a step of a thread does to locks. -/
def lockEvents (s : State Thread Obj Lock) :
    Thread × Act Obj Lock → List (Thread × LockEvent Lock)
  | (t, .acquire) =>
    match s.stack t with
    | ⟨_, _, _, .read (some l)⟩ :: _ => [(t, .lock l)]
    | _ => []
  | (t, .ret) =>
    match s.stack t with
    | ⟨_, _, _, .inside (some l)⟩ :: _ => [(t, .unlock l)]
    | _ => []
  | _ => []

variable [DecidableEq Thread] [DecidableEq Obj] [DecidableEq Lock]

/-- A step and what it does to locks. -/
def traced (s : State Thread Obj Lock) (a : Thread × Act Obj Lock) :
    Option (List (Thread × LockEvent Lock) × State Thread Obj Lock) :=
  (s.step a).map fun s' => (s.lockEvents a, s')

theorem traced_eq_some {a : Thread × Act Obj Lock} {es : List (Thread × LockEvent Lock)} :
    s.traced a = some (es, s') ↔ s.step a = some s' ∧ es = s.lockEvents a := by
  rw [traced, Option.map_eq_some_iff]
  constructor
  · rintro ⟨s₁, hstep, hr⟩
    obtain ⟨rfl, rfl⟩ := Prod.mk.inj hr
    exact ⟨hstep, rfl⟩
  · rintro ⟨hstep, rfl⟩
    exact ⟨s', hstep, rfl⟩

/-- What a step of a thread does to its calls. -/
def Replays (s s' : State Thread Obj Lock) (t : Thread) (es : List (LockEvent Lock)) : Prop :=
  ∃ top top' below, s.stack t = top ++ below ∧ s'.stack t = top' ++ below ∧ top.length ≤ 1 ∧
    LockEvent.replay (locksOf top) es = some (locksOf top')

omit [DecidableEq Obj] [DecidableEq Lock] in
@[simp] theorem setStack_self (s : State Thread Obj Lock) (t : Thread)
    (stack : List (Frame Obj Lock)) : (s.setStack t stack).stack t = stack :=
  Function.update_self ..

omit [DecidableEq Obj] [DecidableEq Lock] in
theorem setStack_of_ne (s : State Thread Obj Lock) {t u : Thread} (hu : u ≠ t)
    (stack : List (Frame Obj Lock)) : (s.setStack t stack).stack u = s.stack u :=
  Function.update_of_ne hu ..

/-- Other steps than locking and returning leave the locks alone. -/
theorem Change.quiet {a : Act Obj Lock} (h : s.Change t a s') (hacquire : a ≠ .acquire)
    (hret : a ≠ .ret) :
    s'.recursiveLock = s.recursiveLock ∧ (∀ u, u ≠ t → s'.stack u = s.stack u) ∧
      s.Replays s' t [] := by
  cases h with
  | @dispatch _ o m i _ =>
    refine ⟨rfl, fun u hu => s.setStack_of_ne hu _, [], [_], s.stack t, rfl, setStack_self ..,
      by simp, ?_⟩
    simp [locksOf, Frame.held_dispatched]
  | @readLock F below hst hsent =>
    refine ⟨rfl, fun u hu => s.setStack_of_ne hu _, [F], [_], below, hst, setStack_self ..,
      by simp, ?_⟩
    simp [locksOf, Frame.held, hsent]
  | acquire => exact absurd rfl hacquire
  | @compare F below body hst =>
    refine ⟨rfl, fun u hu => s.setStack_of_ne hu _, [F], [_], below, hst, setStack_self ..,
      by simp, ?_⟩
    exact LockEvent.replay_nil (locksOf [F])
  | @store F below lock hst hbody =>
    refine ⟨rfl, fun u hu => State.setStack_of_ne _ hu _, [F], [_], below, hst, setStack_self ..,
      by simp, ?_⟩
    exact LockEvent.replay_nil (locksOf [F])
  | @forward F below lock hst =>
    refine ⟨rfl, fun u hu => s.setStack_of_ne hu _, [F], [_, _], below, hst, setStack_self ..,
      by simp, ?_⟩
    rw [locksOf, locksOf, List.filterMap_cons_none Frame.held_dispatched]
    exact LockEvent.replay_nil (locksOf [F])
  | ret => exact absurd rfl hret

/-- A step changes the locks and the calls by what it does to locks. -/
structure Traces (s s' : State Thread Obj Lock) (t : Thread)
    (es : List (Thread × LockEvent Lock)) : Prop where
  stack_of_ne : ∀ u, u ≠ t → s'.stack u = s.stack u
  eventsOf_of_ne : ∀ u, u ≠ t → eventsOf u es = []
  replays : s.Replays s' t (eventsOf t es)
  depth : ∀ u k, (s'.recursiveLock k).depth u + (eventsOf u es).count (.unlock k) =
    (s.recursiveLock k).depth u + (eventsOf u es).count (.lock k)

omit [DecidableEq Obj] in
/-- The innermost frame is replaced and a lock is locked or unlocked. -/
theorem traces_of_event {s₁ : State Thread Obj Lock} {F : Frame Obj Lock}
    {below : List (Frame Obj Lock)} (top : List (Frame Obj Lock))
    {event : Lock → LockEvent Lock} {lock : Option Lock}
    (hst : s.stack t = F :: below) (hstack : s₁.stack = s.stack)
    (hreplay : LockEvent.replay (locksOf [F]) (lock.toList.map event) = some (locksOf top))
    (hdepth : ∀ u k,
      (s₁.recursiveLock k).depth u +
          (if u = t then lock.toList.map event else []).count (.unlock k) =
        (s.recursiveLock k).depth u +
          (if u = t then lock.toList.map event else []).count (.lock k)) :
    s.Traces (s₁.setStack t (top ++ below)) t (lock.toList.map fun l => (t, event l)) where
  stack_of_ne u hu := by rw [setStack_of_ne _ hu, hstack]
  eventsOf_of_ne u hu := by rw [eventsOf_map, if_neg hu]
  replays := by
    refine ⟨[F], top, below, hst, setStack_self .., Nat.le_refl 1, ?_⟩
    rw [eventsOf_map, if_pos rfl]
    exact hreplay
  depth u k := by
    rw [eventsOf_map]
    exact hdepth u k

theorem traced_traces {a : Act Obj Lock} {es : List (Thread × LockEvent Lock)}
    (h : s.traced (t, a) = some (es, s')) : s.Traces s' t es := by
  obtain ⟨hstep, rfl⟩ := traced_eq_some.mp h
  have hquiet (hacquire : a ≠ .acquire) (hret : a ≠ .ret) (hes : s.lockEvents (t, a) = []) :
      s.Traces s' t (s.lockEvents (t, a)) := by
    obtain ⟨hlocks, hother, hreplays⟩ := (step_change hstep).quiet hacquire hret
    rw [hes]
    exact ⟨hother, fun _ _ => rfl, hreplays, fun u k => by rw [hlocks]; rfl⟩
  cases a with
  | acquire =>
    simp only [step] at hstep
    split at hstep
    · next o locking body lock below hst =>
      obtain ⟨s₁, hlock, rfl⟩ := Option.map_eq_some_iff.mp hstep
      obtain ⟨hstack, -, -, hdepth⟩ := lockLock_spec hlock
      have hes : s.lockEvents (t, .acquire) = lock.toList.map fun l => (t, .lock l) := by
        rw [lockEvents, hst]
        cases lock <;> rfl
      rw [hes]
      refine traces_of_event [_] hst hstack ?_ fun u k => ?_
      · cases lock <;> rfl
      · have hnew := hdepth u k
        split <;> cases lock <;> simp_all [List.count_singleton]
    · cases hstep
  | ret =>
    simp only [step] at hstep
    split at hstep
    · next o locking lock below hst =>
      obtain ⟨s₁, hunlock, rfl⟩ := Option.map_eq_some_iff.mp hstep
      obtain ⟨hstack, -, -, hdepth⟩ := lockUnlock_spec hunlock
      have hes : s.lockEvents (t, .ret) = lock.toList.map fun l => (t, .unlock l) := by
        rw [lockEvents, hst]
        cases lock <;> rfl
      rw [hes]
      refine traces_of_event [] hst hstack ?_ fun u k => ?_
      · cases lock with
        | none => rfl
        | some l => exact if_pos rfl
      · have hnew := hdepth u k
        split <;> cases lock <;> simp_all [List.count_singleton]
    · cases hstep
  | call o m => exact hquiet (by simp) (by simp) rfl
  | callSuper m => exact hquiet (by simp) (by simp) rfl
  | readLock => exact hquiet (by simp) (by simp) rfl
  | share => exact hquiet (by simp) (by simp) rfl

omit [DecidableEq Obj] in
/-- The calls below the innermost one stay, and the locks above them are replayed. -/
theorem Traces.above {u : Thread} {es : List (Thread × LockEvent Lock)}
    (h : s.Traces s' u es) {above base : List (Frame Obj Lock)}
    (hstack : s.stack t = above ++ base) (hopen : base = [] ∨ base.length < (s.stack t).length) :
    ∃ above', s'.stack t = above' ++ base ∧
      (LockEvent.replay (locksOf above) (eventsOf t es)) = some (locksOf above') := by
  by_cases htu : t = u
  · subst htu
    obtain ⟨top, top', below, htop, htop', hlength, hreplay⟩ := h.replays
    obtain ⟨between, rfl, rfl⟩ : ∃ between, above = top ++ between ∧ below = between ++ base := by
      rw [hstack] at htop hopen
      cases top with
      | nil => exact ⟨above, rfl, htop.symm⟩
      | cons F top =>
        obtain rfl : top = [] := List.eq_nil_of_length_eq_zero (by simpa using hlength)
        cases above with
        | nil =>
          rcases hopen with rfl | hlt
          · cases htop
          · exact absurd hlt (by simp)
        | cons G above =>
          obtain ⟨rfl, rfl⟩ := List.cons.inj htop
          exact ⟨above, rfl, rfl⟩
    refine ⟨top' ++ between, by rw [htop', List.append_assoc], ?_⟩
    rw [locksOf, locksOf, List.filterMap_append, List.filterMap_append]
    exact LockEvent.replay_held hreplay _
  · refine ⟨above, by rw [h.stack_of_ne t htu, hstack], ?_⟩
    rw [h.eventsOf_of_ne t htu, LockEvent.replay_nil]

/-- In a run that does not return from the calls above some others, the locks to unlock are
those of the calls above. -/
theorem replay_of_run {cond : State Thread Obj Lock → Thread × Act Obj Lock → Prop}
    {es : List (Thread × LockEvent Lock)} (hrun : RunWhile traced cond s es s')
    (above : List (Frame Obj Lock)) {base : List (Frame Obj Lock)}
    (hstack : s.stack t = above ++ base)
    (hcond : ∀ u a, cond u a → base = [] ∨ base.length < (u.stack t).length) :
    ∃ above', s'.stack t = above' ++ base ∧
      LockEvent.replay (locksOf above) (eventsOf t es) = some (locksOf above') := by
  refine hrun.invariant_trace (fun es u => ∃ above', u.stack t = above' ++ base ∧
    LockEvent.replay (locksOf above) (eventsOf t es) = some (locksOf above')) ?_
    ⟨above, hstack, LockEvent.replay_nil _⟩
  rintro u ⟨v, a⟩ es fs u' hopen ⟨above', hstack', hreplay⟩ hstep
  obtain ⟨above'', hstack'', hreplay'⟩ :=
    (traced_traces hstep).above hstack' (hcond u (v, a) hopen)
  refine ⟨above'', hstack'', ?_⟩
  rw [eventsOf_append, LockEvent.replay_append hreplay]
  exact hreplay'

/-- Locks get deeper by what is locked and not unlocked. -/
theorem depth_of_run {cond : State Thread Obj Lock → Thread × Act Obj Lock → Prop}
    {es : List (Thread × LockEvent Lock)} (hrun : RunWhile traced cond s es s') (t : Thread)
    (k : Lock) :
    (s'.recursiveLock k).depth t + (eventsOf t es).count (.unlock k) =
      (s.recursiveLock k).depth t + (eventsOf t es).count (.lock k) := by
  refine hrun.invariant_trace (fun es u =>
    (u.recursiveLock k).depth t + (eventsOf t es).count (.unlock k) =
      (s.recursiveLock k).depth t + (eventsOf t es).count (.lock k)) ?_ rfl
  rintro u ⟨v, a⟩ es fs u' - hold hstep
  have hnew := (traced_traces hstep).depth t k
  rw [eventsOf_append, List.count_append, List.count_append]
  omega

omit [DecidableEq Obj] in
/-- A thread that holds a lock can unlock it. -/
theorem exists_lockUnlock {lock : Option Lock}
    (h : ∀ k, lock = some k → 0 < (s.recursiveLock k).depth t) :
    ∃ s', s.lockUnlock t lock = some s' := by
  cases lock with
  | none => exact ⟨s, rfl⟩
  | some k =>
    obtain ⟨r, hr⟩ := RecursiveLock.exists_unlock (h k rfl)
    exact ⟨_, by rw [lockUnlock, hr]; rfl⟩

/-- A thread holds the locks that its calls will unlock. -/
def Covers (s : State Thread Obj Lock) (t : Thread) : Prop :=
  ∀ k, (locksOf (s.stack t)).count k ≤ (s.recursiveLock k).depth t

omit [DecidableEq Obj] in
theorem Traces.covers {u : Thread} {es : List (Thread × LockEvent Lock)} (h : s.Traces s' u es)
    (hcovers : s.Covers t) : s'.Covers t := by
  obtain ⟨above, habove, hreplay⟩ := h.above (List.append_nil _).symm (.inl rfl)
  rw [List.append_nil] at habove
  intro k
  have hcount := LockEvent.count_replay hreplay k
  have hdepth := h.depth t k
  have hold := hcovers k
  rw [habove]
  omega

theorem covers_of_run {cond : State Thread Obj Lock → Thread × Act Obj Lock → Prop}
    {es : List (Thread × LockEvent Lock)} (hrun : RunWhile traced cond s es s')
    (hcovers : s.Covers t) : s'.Covers t := by
  refine hrun.invariant (fun u => u.Covers t) ?_ hcovers
  rintro u ⟨v, a⟩ es u' - hcovers hstep
  exact (traced_traces hstep).covers hcovers

/-- A step to a further call. -/
theorem Change.entry {a : Act Obj Lock} (h : s.Change t a s')
    (hentry : (s.stack t).length < (s'.stack t).length) :
    ∃ F below, s'.stack t = F :: below ∧ F.held = none ∧ below.length = (s.stack t).length ∧
      s'.recursiveLock = s.recursiveLock := by
  cases h with
  | dispatch => exact ⟨_, _, setStack_self .., Frame.held_dispatched, rfl, rfl⟩
  | forward lock hst =>
    refine ⟨_, _, setStack_self .., Frame.held_dispatched, ?_, rfl⟩
    rw [hst]
    rfl
  | readLock hst | acquire hst | compare body hst | store hst | ret hst =>
    rw [setStack_self, hst] at hentry
    simp only [List.length_cons] at hentry
    omega

/-- A call, a super call or a call of a called method, at any moment until it has returned. The
thread has locked and not unlocked the locks that its calls in flight will unlock, in this
order. It can return from the innermost call. When it has returned from all of them, it has
unlocked the locks that it locked, and every lock is as deep as it was on entry. -/
theorem call_lock_balance {s₀ s₁ s₂ : State Thread Obj Lock}
    {es fs : List (Thread × LockEvent Lock)} (hidle : ∀ u, s₀.stack u = [])
    (hrun : Run traced s₀ es s) {a : Act Obj Lock} (hstep : s.step (t, a) = some s₁)
    (hentry : (s.stack t).length < (s₁.stack t).length)
    (hcall : RunWhile traced (fun u _ => (s.stack t).length < (u.stack t).length) s₁ fs s₂) :
    LockEvent.replay [] (eventsOf t fs) =
        some (locksOf ((s₂.stack t).take ((s₂.stack t).length - (s.stack t).length))) ∧
      (∀ o locking lock below, s₂.stack t = ⟨o, locking, .code, .inside lock⟩ :: below →
        ∃ s₃, s₂.step (t, .ret) = some s₃) ∧
      ((s₂.stack t).length = (s.stack t).length →
        LockEvent.Balanced (eventsOf t fs) ∧
          ∀ k, (s₂.recursiveLock k).depth t = (s.recursiveLock k).depth t) := by
  obtain ⟨F, base, hstack₁, hheld, hbase, hlocks⟩ := (step_change hstep).entry hentry
  rw [← hbase] at hcall ⊢
  obtain ⟨above, hstack₂, hreplay⟩ := replay_of_run hcall [F] hstack₁
    fun _ _ hopen => .inr hopen
  have hnone : locksOf [F] = [] := List.filterMap_cons_none hheld
  rw [hnone] at hreplay
  refine ⟨?_, ?_, ?_⟩
  · rw [hreplay, hstack₂, List.length_append, Nat.add_sub_cancel, List.take_left]
  · intro o locking lock below hst
    have hcovers₀ : s₀.Covers t := fun k => by simp [hidle t, locksOf]
    have hcovers : s₁.Covers t := by
      have htraced : s.traced (t, a) = some (s.lockEvents (t, a), s₁) :=
        traced_eq_some.mpr ⟨hstep, rfl⟩
      exact (traced_traces htraced).covers (covers_of_run hrun hcovers₀)
    obtain ⟨s₃, hunlock⟩ : ∃ s₃, s₂.lockUnlock t lock = some s₃ := by
      refine exists_lockUnlock ?_
      rintro k rfl
      have hk := covers_of_run hcall hcovers k
      rw [hst] at hk
      simp only [locksOf, List.filterMap_cons, Frame.held, List.count_cons_self] at hk
      omega
    exact ⟨s₃.setStack t below, by simp only [step, hst, hunlock, Option.map_some]⟩
  · intro hlength
    have habove : above = [] := by
      rw [hstack₂, List.length_append] at hlength
      exact List.eq_nil_of_length_eq_zero (by omega)
    rw [habove] at hreplay
    refine ⟨hreplay, fun k => ?_⟩
    have hcount := LockEvent.count_replay hreplay k
    have hdepth := depth_of_run hcall t k
    rw [hlocks] at hdepth
    simp only [locksOf, List.filterMap_nil, List.count_nil] at hcount
    omega

end State

/-- A method of the object `0` shares the lock of the object `1`. It returns from the lock that
it locked. -/
theorem share_in_call_balanced :
    ∃ (s₁ s₂ : State Unit ℕ ℕ) (fs : List (Unit × LockEvent ℕ)),
      (State.created id).step ((), .call 0 locked) = some s₁ ∧
        RunWhile State.traced (fun u _ => 0 < (u.stack ()).length) s₁ fs s₂ ∧
        s₂.lock 0 = some 1 ∧ eventsOf () fs = [.lock 0, .lock 0, .unlock 0, .unlock 0] ∧
        ∀ k, (s₂.recursiveLock k).depth () = 0 := by
  have hrun : ∃ (s₁ s₂ : State Unit ℕ ℕ) (fs : List (Unit × LockEvent ℕ)),
      (State.created id).step ((), .call 0 locked) = some s₁ ∧
        RunWhile State.traced (fun u _ => 0 < (u.stack ()).length) s₁ fs s₂ ∧
        s₂.lock 0 = some 1 ∧ eventsOf () fs = [.lock 0, .lock 0, .unlock 0, .unlock 0] ∧
        s₂.stack () = [] := by
    have hopen {u : State Unit ℕ ℕ} {F : Frame ℕ ℕ} {below : List (Frame ℕ ℕ)}
        (hst : u.stack () = F :: below) : 0 < (u.stack ()).length := by simp [hst]
    have h₀ : RunWhile State.traced (fun u _ => 0 < (u.stack ()).length)
      ((State.created id : State Unit ℕ ℕ).setStack ()
        [.dispatched 0 locked .lockingForward]) [] _ := .refl _
    have h₁ := h₀.tail ((), Act.readLock) (hopen rfl) rfl
    have h₂ := h₁.tail ((), Act.acquire) (hopen rfl) rfl
    have h₃ := h₂.tail ((), Act.call 0 (.shareRecursiveLockWithObject (some 1))) (hopen rfl) rfl
    have h₄ := h₃.tail ((), Act.share) (hopen rfl) rfl
    have h₅ := h₄.tail ((), Act.readLock) (hopen rfl) rfl
    have h₆ := h₅.tail ((), Act.acquire) (hopen rfl) rfl
    have h₇ := h₆.tail ((), Act.share) (hopen rfl) rfl
    have h₈ := h₇.tail ((), Act.share) (hopen rfl) rfl
    have h₉ := h₈.tail ((), Act.ret) (hopen rfl) rfl
    have h₁₀ := h₉.tail ((), Act.ret) (hopen rfl) rfl
    have h₁₁ := h₁₀.tail ((), Act.ret) (hopen rfl) rfl
    refine ⟨_, _, _, rfl, h₁₁, ?_, ?_, ?_⟩
    all_goals rfl
  obtain ⟨s₁, s₂, fs, hstep, hrun, hlock, hevents, hstack⟩ := hrun
  refine ⟨s₁, s₂, fs, hstep, hrun, hlock, hevents, ?_⟩
  have hentry : ((State.created id : State Unit ℕ ℕ).stack ()).length < (s₁.stack ()).length := by
    obtain rfl := Option.some.inj hstep
    exact Nat.zero_lt_one
  have hbalance := State.call_lock_balance (fun _ => rfl) (.refl _) hstep hentry hrun
  exact (hbalance.2.2 (congrArg List.length hstack)).2

end MulleObjC.Autolock
