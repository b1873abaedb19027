import MulleObjC.Autolock.Lifetime

/-!
# Locking by hand

A `MulleObject` is a `NSLocking`. Its `-lock`, `-tryLock` and `-unlock` are no locking methods.
They read `__lock` anew each time, so that an unlock can miss the lock that was locked. Here they
run beside the calls. If nobody replaces the lock of an object that is locked by hand, then
locking by hand and the locking methods keep each other out.
-/

namespace MulleObjC.Autolock

open Machine

/-- The methods of `NSLocking`. -/
inductive Locking
  | lock
  | tryLock
  | unlock
  deriving DecidableEq, Repr

/-- All calls, with the locking by hand. -/
structure ByHand (Thread Obj Lock : Type*) where
  calls : State Thread Obj Lock
  /-- A method that has read `__lock`. -/
  reading : Thread → Option (Locking × Obj × Lock)
  /-- What `-lock` and `-tryLock` have locked for an object and `-unlock` has not unlocked. -/
  held : Thread → List (Obj × Lock)

/-- What a thread can do. -/
inductive ByHandAct (Obj Lock : Type*)
  | calls (a : Act Obj Lock)
  /-- `-lock`, `-tryLock` or `-unlock`, up to what it does with the lock. -/
  | read (m : Locking) (o : Obj)
  /-- `_MulleObjCRecursiveLockLock`, `_MulleObjCRecursiveLockTryLock` or
  `_MulleObjCRecursiveLockUnlock` -/
  | perform

/-- What `-tryLock` of an object returned. -/
structure Answer (Thread Obj : Type*) where
  thread : Thread
  obj : Obj
  yes : Bool
  deriving DecidableEq

variable {Thread Obj Lock : Type*} [DecidableEq Thread] [DecidableEq Obj] [DecidableEq Lock]

namespace ByHand

variable (s : ByHand Thread Obj Lock)

/-- A method returns. -/
def returned (t : Thread) : ByHand Thread Obj Lock :=
  { s with reading := Function.update s.reading t none }

/-- A method returns with the lock locked. -/
def locked (t : Thread) (o : Obj) (k : Lock) (calls : State Thread Obj Lock) :
    ByHand Thread Obj Lock where
  calls := calls
  reading := Function.update s.reading t none
  held := Function.update s.held t ((o, k) :: s.held t)

/-- A method returns with the lock unlocked. -/
def unlocked (t : Thread) (o : Obj) (k : Lock) (calls : State Thread Obj Lock) :
    ByHand Thread Obj Lock where
  calls := calls
  reading := Function.update s.reading t none
  held := Function.update s.held t ((s.held t).erase (o, k))

/-- A step of a thread. A thread that has to wait for a lock has no step. Neither has one that
unlocks a lock that is not its own. -/
def step : Thread × ByHandAct Obj Lock →
    Option (List (Answer Thread Obj) × ByHand Thread Obj Lock)
  | (t, .calls a) =>
    if (s.reading t).isNone then (s.calls.step (t, a)).map fun calls => ([], { s with calls })
    else none
  | (t, .read m o) =>
    if (s.reading t).isNone && RunsCode (s.calls.stack t) then
      match s.calls.lock o with
      | none => some (if m = .tryLock then [⟨t, o, false⟩] else [], s)
      | some k => some ([], { s with reading := Function.update s.reading t (some (m, o, k)) })
    else none
  | (t, .perform) =>
    match s.reading t with
    | none => none
    | some (.lock, o, k) =>
      (s.calls.lockLock t (some k)).map fun calls => ([], s.locked t o k calls)
    | some (.tryLock, o, k) =>
      match s.calls.lockLock t (some k) with
      | some calls => some ([⟨t, o, true⟩], s.locked t o k calls)
      | none => some ([⟨t, o, false⟩], s.returned t)
    | some (.unlock, o, k) =>
      (s.calls.lockUnlock t (some k)).map fun calls => ([], s.unlocked t o k calls)

/-- All objects have a lock, and nothing runs. -/
def created (lock : Obj → Lock) : ByHand Thread Obj Lock where
  calls := .created lock
  reading _ := none
  held _ := []

/-- The thread does not lock the object by hand. -/
def Quiet (t : Thread) (o : Obj) : Prop :=
  (∀ x ∈ s.held t, x.1 ≠ o) ∧ ∀ m k, s.reading t ≠ some (m, o, k)

/-- Calls are permitted, and no lock of an object is replaced that is locked by hand. What is
unlocked by hand was locked by hand. -/
def Legal : Thread × ByHandAct Obj Lock → Prop
  | (t, .calls a) =>
    s.calls.Permitted (t, a) ∧
      ∀ o lock, s.calls.stored t a = some (o, lock) → ∀ u, s.Quiet u o
  | (t, .read .unlock o) => ∃ k, (o, k) ∈ s.held t
  | _ => True

/-- How often a thread has to unlock a lock, in its calls and by hand. -/
def owed (t : Thread) (k : Lock) : ℕ :=
  (locksOf (s.calls.stack t)).count k + (s.held t).countP (·.2 = k)

/-- The thread is in a locking method of the object, or has locked it by hand. -/
def Works (t : Thread) (o : Obj) : Prop := s.calls.InBody t o ∨ ∃ k, (o, k) ∈ s.held t

end ByHand

namespace State

variable {s s' : State Thread Obj Lock} {t : Thread} {a : Act Obj Lock}

omit [DecidableEq Obj] in
/-- The calls of a thread lock what they will unlock. -/
theorem Traces.depth_add {u : Thread} {es : List (Thread × LockEvent Lock)}
    (h : s.Traces s' u es) (t : Thread) (k : Lock) :
    (s'.recursiveLock k).depth t + (locksOf (s.stack t)).count k =
      (s.recursiveLock k).depth t + (locksOf (s'.stack t)).count k := by
  obtain ⟨above, habove, hreplay⟩ := h.above (List.append_nil _).symm (.inl rfl)
  rw [List.append_nil] at habove
  have hcount := LockEvent.count_replay hreplay k
  have hdepth := h.depth t k
  rw [habove]
  omega

theorem depth_of_step (h : s.step (t, a) = some s') (u : Thread) (k : Lock) :
    (s'.recursiveLock k).depth u + (locksOf (s.stack u)).count k =
      (s.recursiveLock k).depth u + (locksOf (s'.stack u)).count k := by
  have htraced : s.traced (t, a) = some (s.lockEvents (t, a), s') :=
    traced_eq_some.mpr ⟨h, rfl⟩
  exact (traced_traces htraced).depth_add u k

/-- A step leaves the lock of an object alone, unless it stores it. -/
theorem lock_of_step (h : s.step (t, a) = some s') {o : Obj}
    (ho : ∀ p lock, s.stored t a = some (p, lock) → p ≠ o) : s'.lock o = s.lock o := by
  cases hstored : s.stored t a with
  | none => rw [lock_of_stored_eq_none h hstored]
  | some stored =>
    obtain ⟨p, lock⟩ := stored
    rw [(lock_of_stored h hstored).2, Function.update_of_ne (ho p lock hstored).symm]

omit [DecidableEq Obj] [DecidableEq Lock] [DecidableEq Thread] in
theorem mem_locksOf_of_holds {stack : List (Frame Obj Lock)} {k : Lock}
    (h : ∃ K ∈ stack, K.Holds k) : k ∈ locksOf stack := by
  obtain ⟨K, hK, hholds⟩ := h
  exact List.mem_filterMap.mpr ⟨K, hK, by rw [Frame.held, hholds]⟩

end State

namespace ByHand

variable {s s' : ByHand Thread Obj Lock} {t u : Thread} {o : Obj} {k : Lock}
  {es : List (Answer Thread Obj)}

/-- What a step can do. -/
inductive Change (s : ByHand Thread Obj Lock) (t : Thread) :
    ByHandAct Obj Lock → List (Answer Thread Obj) → ByHand Thread Obj Lock → Prop
  | calls {a : Act Obj Lock} {calls : State Thread Obj Lock}
      (hstep : s.calls.step (t, a) = some calls) :
      Change s t (.calls a) [] { s with calls := calls }
  | lockless {m : Locking} {o : Obj} (es : List (Answer Thread Obj)) :
      Change s t (.read m o) es s
  | read {m : Locking} {o : Obj} {k : Lock} (hlock : s.calls.lock o = some k) :
      Change s t (.read m o) []
        { s with reading := Function.update s.reading t (some (m, o, k)) }
  | lock {m : Locking} {o : Obj} {k : Lock} (es : List (Answer Thread Obj))
      {calls : State Thread Obj Lock} (hreading : s.reading t = some (m, o, k))
      (hlock : s.calls.lockLock t (some k) = some calls) :
      Change s t .perform es (s.locked t o k calls)
  | fail (es : List (Answer Thread Obj)) : Change s t .perform es (s.returned t)
  | unlock {o : Obj} {k : Lock} {calls : State Thread Obj Lock}
      (hreading : s.reading t = some (.unlock, o, k))
      (hunlock : s.calls.lockUnlock t (some k) = some calls) :
      Change s t .perform [] (s.unlocked t o k calls)

theorem step_change {a : ByHandAct Obj Lock} (h : s.step (t, a) = some (es, s')) :
    s.Change t a es s' := by
  cases a with
  | calls a =>
    simp only [step] at h
    split at h
    · obtain ⟨calls, hstep, hr⟩ := Option.map_eq_some_iff.mp h
      obtain ⟨rfl, rfl⟩ := Prod.mk.inj hr
      exact .calls hstep
    · cases h
  | read m o =>
    simp only [step] at h
    split at h
    · split at h
      · obtain ⟨-, rfl⟩ := Prod.mk.inj (Option.some.inj h)
        exact .lockless es
      · next k hlock =>
        obtain ⟨rfl, rfl⟩ := Prod.mk.inj (Option.some.inj h)
        exact .read hlock
    · cases h
  | perform =>
    simp only [step] at h
    split at h
    · cases h
    · next o k hreading =>
      obtain ⟨calls, hlock, hr⟩ := Option.map_eq_some_iff.mp h
      obtain ⟨-, rfl⟩ := Prod.mk.inj hr
      exact .lock es hreading hlock
    · next o k hreading =>
      split at h
      · next calls hlock =>
        obtain ⟨-, rfl⟩ := Prod.mk.inj (Option.some.inj h)
        exact .lock es hreading hlock
      · obtain ⟨-, rfl⟩ := Prod.mk.inj (Option.some.inj h)
        exact .fail es
    · next o k hreading =>
      obtain ⟨calls, hunlock, hr⟩ := Option.map_eq_some_iff.mp h
      obtain ⟨rfl, rfl⟩ := Prod.mk.inj hr
      exact .unlock hreading hunlock

/-- What a run keeps. -/
structure Sound (s : ByHand Thread Obj Lock) : Prop where
  guarded : s.calls.Guarded
  /-- The locks are locked as often as they will be unlocked. -/
  depth : ∀ t k, (s.calls.recursiveLock k).depth t = s.owed t k
  /-- An object keeps the lock that was locked by hand. -/
  current : ∀ t, ∀ x ∈ s.held t, s.calls.lock x.1 = some x.2
  /-- And the one that a method has read. What is to be unlocked was locked. -/
  reading : ∀ t m o k, s.reading t = some (m, o, k) →
    s.calls.lock o = some k ∧ (m = .unlock → (o, k) ∈ s.held t)

omit [DecidableEq Obj] in
theorem sound_created (lock : Obj → Lock) : (created lock : ByHand Thread Obj Lock).Sound where
  guarded := by
    constructor
    · intro o k hk t
      trivial
    · intro o hnone
      cases hnone
  depth _ _ := rfl
  current _ _ hx := by cases hx
  reading _ _ _ _ hreading := by cases hreading

omit [DecidableEq Obj] [DecidableEq Lock] in
/-- A method that has returned does not wait any more. -/
theorem of_update_reading {x : Locking × Obj × Lock}
    (h : Function.update s.reading t none u = some x) : u ≠ t ∧ s.reading u = some x := by
  by_cases hu : u = t
  · subst hu
    simp at h
  · rw [Function.update_of_ne hu] at h
    exact ⟨hu, h⟩

omit [DecidableEq Obj] in
theorem owed_locked {calls : State Thread Obj Lock} (hstack : calls.stack = s.calls.stack)
    (u : Thread) (j : Lock) :
    (s.locked t o k calls).owed u j = s.owed u j + if u = t ∧ some k = some j then 1 else 0 := by
  by_cases hu : u = t
  · subst hu
    simp only [owed, locked, hstack, Function.update_self, List.countP_cons, decide_eq_true_eq,
      Option.some.injEq, true_and]
    omega
  · simp [owed, locked, hstack, hu]

theorem owed_unlocked {calls : State Thread Obj Lock} (hstack : calls.stack = s.calls.stack)
    (hheld : (o, k) ∈ s.held t) (u : Thread) (j : Lock) :
    (s.unlocked t o k calls).owed u j + (if u = t ∧ some k = some j then 1 else 0) =
      s.owed u j := by
  by_cases hu : u = t
  · subst hu
    have hcount := (List.perm_cons_erase hheld).countP_eq (·.2 = j)
    simp only [List.countP_cons, decide_eq_true_eq] at hcount
    simp only [owed, unlocked, hstack, Function.update_self, Option.some.injEq, true_and]
    omega
  · simp [owed, unlocked, hstack, hu]

/-- A legal step keeps the locks. -/
theorem Sound.step {a : ByHandAct Obj Lock} (hs : s.Sound) (hlegal : s.Legal (t, a))
    (h : s.step (t, a) = some (es, s')) : s'.Sound := by
  cases step_change h with
  | @calls a calls hstep =>
    obtain ⟨hpermitted, hquiet⟩ := hlegal
    have hlock {u : Thread} {o : Obj} (ho : ¬ s.Quiet u o) : calls.lock o = s.calls.lock o :=
      State.lock_of_step hstep fun p lock hstored hp => ho (hp ▸ hquiet p lock hstored u)
    refine ⟨(State.step_change hstep).guarded hpermitted hs.guarded, fun u k => ?_,
      fun u x hx => ?_, fun u m o k hreading => ?_⟩
    · have hdepth := State.depth_of_step hstep u k
      have hold := hs.depth u k
      simp only [owed] at hold ⊢
      omega
    · rw [hlock fun hq => hq.1 x hx rfl]
      exact hs.current u x hx
    · obtain ⟨hcurrent, hunlock⟩ := hs.reading u m o k hreading
      exact ⟨by rw [hlock fun hq => hq.2 m k hreading, hcurrent], hunlock⟩
  | lockless => exact hs
  | @read m o k hlock =>
    refine ⟨hs.guarded, hs.depth, hs.current, fun u m' o' k' hreading => ?_⟩
    by_cases hu : u = t
    · subst hu
      simp only [Function.update_self, Option.some.injEq, Prod.mk.injEq] at hreading
      obtain ⟨rfl, rfl, rfl⟩ := hreading
      refine ⟨hlock, ?_⟩
      rintro rfl
      obtain ⟨j, hj⟩ := hlegal
      obtain rfl : k = j := Option.some.inj (hlock.symm.trans (hs.current u _ hj))
      exact hj
    · simp only [Function.update_of_ne hu] at hreading
      exact hs.reading u m' o' k' hreading
  | @lock m o k _ calls hreading hlock =>
    obtain ⟨hstack, hlocks, haffinity, hdepth⟩ := State.lockLock_spec hlock
    refine ⟨hs.guarded.congr hstack hlocks haffinity, fun u j => ?_, fun u x hx => ?_,
      fun u m' o' k' hwaits => ?_⟩
    · rw [owed_locked hstack, ← hs.depth]
      exact hdepth u j
    · simp only [locked] at hx ⊢
      rw [hlocks]
      by_cases hu : u = t
      · subst hu
        rw [Function.update_self] at hx
        rcases List.mem_cons.mp hx with rfl | hx
        · exact (hs.reading u m o k hreading).1
        · exact hs.current u x hx
      · rw [Function.update_of_ne hu] at hx
        exact hs.current u x hx
    · obtain ⟨hu, hwaits⟩ := of_update_reading hwaits
      simp only [locked, hlocks, Function.update_of_ne hu]
      exact hs.reading u m' o' k' hwaits
  | fail =>
    refine ⟨hs.guarded, hs.depth, hs.current, fun u m o k hreading => ?_⟩
    exact hs.reading u m o k (of_update_reading hreading).2
  | @unlock o k calls hreading hunlock =>
    obtain ⟨hstack, hlocks, haffinity, hdepth⟩ := State.lockUnlock_spec hunlock
    have hheld : (o, k) ∈ s.held t := (hs.reading t _ o k hreading).2 rfl
    refine ⟨hs.guarded.congr hstack hlocks haffinity, fun u j => ?_, fun u x hx => ?_,
      fun u m' o' k' hwaits => ?_⟩
    · have hnew := hdepth u j
      have howed := owed_unlocked hstack hheld u j
      have hold := hs.depth u j
      simp only [unlocked] at hnew howed ⊢
      omega
    · simp only [unlocked] at hx ⊢
      rw [hlocks]
      by_cases hu : u = t
      · subst hu
        rw [Function.update_self] at hx
        exact hs.current u x (List.mem_of_mem_erase hx)
      · rw [Function.update_of_ne hu] at hx
        exact hs.current u x hx
    · obtain ⟨hu, hwaits⟩ := of_update_reading hwaits
      simp only [unlocked, hlocks, Function.update_of_ne hu]
      exact hs.reading u m' o' k' hwaits

omit [DecidableEq Thread] [DecidableEq Obj] in
theorem owed_pos_of_held (h : (o, k) ∈ s.held t) : 0 < s.owed t k := by
  have : 0 < (s.held t).countP (·.2 = k) := List.countP_pos_iff.mpr ⟨_, h, by simp⟩
  rw [owed]
  omega

omit [DecidableEq Obj] in
/-- A thread that works on an object has its lock. -/
theorem Sound.owed_pos (hs : s.Sound) (hlock : s.calls.lock o = some k) (ht : s.Works t o) :
    0 < s.owed t k := by
  rcases ht with ⟨F, hF, hobj, hlocking, lock, hinside⟩ | ⟨j, hj⟩
  · have hholds := (hs.guarded.covered o k hlock t).exists_holds hF hobj hlocking hinside
    have := List.count_pos_iff.mpr (State.mem_locksOf_of_holds hholds)
    rw [owed]
    omega
  · obtain rfl : k = j := Option.some.inj (hlock.symm.trans (hs.current t _ hj))
    have : 0 < (s.held t).countP (·.2 = k) := List.countP_pos_iff.mpr ⟨_, hj, by simp⟩
    rw [owed]
    omega

omit [DecidableEq Obj] in
theorem Sound.eq_of_works (hs : s.Sound) (ht : s.Works t o) (hu : s.Works u o) : t = u := by
  cases hlock : s.calls.lock o with
  | some k =>
    have hdepth {v : Thread} (hv : s.Works v o) : 0 < (s.calls.recursiveLock k).depth v := by
      rw [hs.depth]
      exact hs.owed_pos hlock hv
    exact RecursiveLock.eq_of_depth_pos (hdepth ht) (hdepth hu)
  | none =>
    -- nothing was locked by hand, and the object belongs to one thread
    have haffinity {v : Thread} (hv : s.Works v o) : s.calls.affinity o = some v := by
      rcases hv with ⟨F, hF, hobj, hlocking, lock, hinside⟩ | ⟨j, hj⟩
      · exact hs.guarded.affine o hlock v F hF ⟨hobj, hlocking, by simp [hinside]⟩
      · cases hlock.symm.trans (hs.current v _ hj)
    exact Option.some.inj ((haffinity ht).symm.trans (haffinity hu))

omit [DecidableEq Obj] in
/-- A lock that a thread has to wait for is the lock of another thread. -/
theorem Sound.exists_of_lockLock_eq_none (hs : s.Sound)
    (h : s.calls.lockLock t (some k) = none) : ∃ u, u ≠ t ∧ 0 < s.owed u k := by
  obtain ⟨u, hu, hdepth⟩ := RecursiveLock.exists_of_lock_eq_none (Option.map_eq_none_iff.mp h)
  exact ⟨u, hu, by rwa [← hs.depth]⟩

/-- Locking by hand and the locking methods get along. -/
structure Kept (s : ByHand Thread Obj Lock) : Prop where
  /-- One thread works on an object. -/
  excludes : ∀ o t u, s.Works t o → s.Works u o → t = u
  /-- A lock is locked as often as its owner has to unlock it. -/
  depth : ∀ t k, (s.calls.recursiveLock k).depth t = s.owed t k
  /-- When all calls have returned and nothing is locked by hand, every lock is free. -/
  free : (∀ t, s.calls.stack t = [] ∧ s.held t = []) → ∀ k, s.calls.recursiveLock k = none
  /-- `-unlock` unlocks what was locked by hand. -/
  unlocks : ∀ t o k, s.reading t = some (.unlock, o, k) → (o, k) ∈ s.held t ∧
    ∃ s', s.step (t, .perform) = some ([], s') ∧ s'.held t = (s.held t).erase (o, k)
  /-- `-lock` waits only for another thread that has the lock. -/
  waits : ∀ t o k, s.reading t = some (.lock, o, k) → s.step (t, .perform) = none →
    ∃ u, u ≠ t ∧ 0 < s.owed u k
  /-- `-tryLock` says if the object is locked now. If not, another thread has the lock. -/
  answers : ∀ t o k, s.reading t = some (.tryLock, o, k) →
    ∃ s' yes, s.step (t, .perform) = some ([⟨t, o, yes⟩], s') ∧
      s'.held t = (if yes then [(o, k)] else []) ++ s.held t ∧
      (yes = false → ∃ u, u ≠ t ∧ 0 < s.owed u k)

theorem Sound.kept (hs : s.Sound) : s.Kept where
  excludes o t u := hs.eq_of_works
  depth := hs.depth
  free hdone k := by
    refine RecursiveLock.eq_none_of_depth_eq_zero fun t => ?_
    rw [hs.depth, owed, (hdone t).1, (hdone t).2]
    rfl
  unlocks t o k hreading := by
    have hheld := (hs.reading t _ o k hreading).2 rfl
    obtain ⟨calls, hunlock⟩ : ∃ calls, s.calls.lockUnlock t (some k) = some calls := by
      refine State.exists_lockUnlock fun j hj => ?_
      obtain rfl := Option.some.inj hj
      rw [hs.depth]
      exact owed_pos_of_held hheld
    refine ⟨hheld, s.unlocked t o k calls, ?_, Function.update_self ..⟩
    simp only [ByHand.step, hreading, hunlock, Option.map_some]
  waits t o k hreading hstep := by
    simp only [ByHand.step, hreading] at hstep
    exact hs.exists_of_lockLock_eq_none (Option.map_eq_none_iff.mp hstep)
  answers t o k hreading := by
    simp only [ByHand.step, hreading]
    cases hlock : s.calls.lockLock t (some k) with
    | some calls => exact ⟨_, true, rfl, Function.update_self .., by simp⟩
    | none => exact ⟨_, false, rfl, rfl, fun _ => hs.exists_of_lockLock_eq_none hlock⟩

/-- In every run in which the calls are permitted, nobody replaces the lock of an object that is
locked by hand, and nobody unlocks by hand what was not locked by hand. -/
theorem kept_apart_of_run {lock : Obj → Lock} {es : List (Answer Thread Obj)}
    (hrun : RunWhile step Legal (created lock) es s) : s.Kept := by
  refine (hrun.invariant Sound ?_ (sound_created lock)).kept
  rintro s ⟨t, a⟩ es s' hlegal hs hstep
  exact hs.step hlegal hstep

end ByHand

/-- The thread `false` has locked the object `0` by hand. The thread `true` does not get its lock,
and waits for it in a locking method. -/
theorem kept_apart_of_run_locked : ∃ (s : ByHand Bool ℕ ℕ) (es : List (Answer Bool ℕ)),
    RunWhile ByHand.step ByHand.Legal (.created id) es s ∧ es = [⟨true, 0, false⟩] ∧
      (0, 0) ∈ s.held false ∧ s.step (true, .calls .acquire) = none ∧
      ∀ u, s.Works u 0 → u = false := by
  have hrun : ∃ (s : ByHand Bool ℕ ℕ) (es : List (Answer Bool ℕ)),
      RunWhile ByHand.step ByHand.Legal (.created id) es s ∧ es = [⟨true, 0, false⟩] ∧
        (0, 0) ∈ s.held false ∧ s.step (true, .calls .acquire) = none := by
    have hcall {s : ByHand Bool ℕ ℕ} : s.Legal (true, .calls (.call 0 locked)) :=
      ⟨trivial, fun o lock hstored => by cases hstored⟩
    have hread {s : ByHand Bool ℕ ℕ} (hlock : s.calls.lock = fun o => some o) :
        s.Legal (true, .calls .readLock) := by
      refine ⟨fun F below hst hnone => ?_, fun o lock hstored => by cases hstored⟩
      rw [hlock] at hnone
      cases hnone
    have h₀ : RunWhile ByHand.step ByHand.Legal (.created id : ByHand Bool ℕ ℕ) [] _ := .refl _
    have h₁ := h₀.tail (false, ByHandAct.read .lock 0) trivial rfl
    have h₂ := h₁.tail (false, ByHandAct.perform) trivial rfl
    have h₃ := h₂.tail (true, ByHandAct.read .tryLock 0) trivial rfl
    have h₄ := h₃.tail (true, ByHandAct.perform) trivial rfl
    have h₅ := h₄.tail (true, ByHandAct.calls (.call 0 locked)) hcall rfl
    have h₆ := h₅.tail (true, ByHandAct.calls .readLock) (hread rfl) rfl
    exact ⟨_, _, h₆, rfl, List.mem_cons_self, rfl⟩
  obtain ⟨s, es, hrun, hes, hheld, hwaits⟩ := hrun
  exact ⟨s, es, hrun, hes, hheld, hwaits, fun u hu =>
    (ByHand.kept_apart_of_run hrun).excludes 0 u false hu (.inr ⟨0, hheld⟩)⟩

end MulleObjC.Autolock
