import MulleObjC.Access.Balance
import MulleObjC.Autolock.Balance
import MulleObjC.Library.Holdings

/-!
# How long locks live

`-__lockingForward:` does not retain the lock that it locks and unlocks. What keeps the lock alive
is that the object owns it, and that `-shareRecursiveLock:` does not release the lock it replaces
but puts it into the current pool of the thread. Here the calls run beside the pools of all threads
and the retain counts of the locks.
-/

namespace MulleObjC.Autolock

open Machine Access

/-- A `NSRecursiveLock` is counted, and a `MulleObjCThreadSafe`. -/
def lockClasses {Lock : Type*} : Classes Lock := ⟨fun _ => false, fun _ => .knownThreadSafe⟩

/-- All calls, with the locks as objects. -/
structure Locks (Thread Obj Lock : Type*) where
  calls : State Thread Obj Lock
  world : World Thread Lock

/-- What a thread can do. -/
inductive LocksAct (Obj Lock : Type*)
  | calls (a : Act Obj Lock)
  /-- Work on pools and on locks that have nothing to do with the calls. -/
  | world (a : Access.Act Lock)
  /-- `-init`: `__lock = [NSRecursiveLock new]`. -/
  | init (o : Obj) (k : Lock)
  /-- `-dealloc`: `[__lock release]`. -/
  | dealloc (o : Obj)

/-- The lock that the step stores in an object. -/
def State.stored {Thread Obj Lock : Type*} (s : State Thread Obj Lock) (t : Thread) :
    Act Obj Lock → Option (Obj × Option Lock)
  | .share =>
    match s.stack t with
    | ⟨o, _, .storeLock lock, _⟩ :: _ => some (o, lock)
    | _ => none
  | _ => none

/-- The references that an act gives up. -/
def givenUp {Lock : Type*} : Access.Act Lock → List Lock
  | .pool act => handedOver act
  | .release k => [k]
  | _ => []

variable {Thread Obj Lock : Type*} [DecidableEq Thread] [DecidableEq Obj] [DecidableEq Lock]

/-- `[self->__lock autorelease]` -/
def autoreleaseLock (w : World Thread Lock) (t : Thread) :
    Option Lock → Option (List (Pool.Event Lock) × World Thread Lock)
  | none => some ([], w)
  | some k => w.step lockClasses (t, .pool (.autorelease k))

/-- `[lock retain]` -/
def retainLock (w : World Thread Lock) (t : Thread) :
    Option Lock → Option (List (Pool.Event Lock) × World Thread Lock)
  | none => some ([], w)
  | some k => w.step lockClasses (t, .retain k)

/-- `[self->__lock autorelease]; self->__lock = [lock retain];` -/
def replaceLock (w : World Thread Lock) (t : Thread) (old lock : Option Lock) :
    Option (List (Pool.Event Lock) × World Thread Lock) :=
  (autoreleaseLock w t old).bind fun r =>
    (retainLock r.2 t lock).map fun r' => (r.1 ++ r'.1, r'.2)

namespace Locks

/-- A step of a thread. Nobody shares a lock that is deallocated. -/
def step (s : Locks Thread Obj Lock) :
    Thread × LocksAct Obj Lock → Option (List (Pool.Event Lock) × Locks Thread Obj Lock)
  | (t, .calls a) =>
    (s.calls.step (t, a)).bind fun calls =>
      match s.calls.stored t a with
      | none => some ([], ⟨calls, s.world⟩)
      | some (o, lock) =>
        (replaceLock s.world t (s.calls.lock o) lock).map fun r => (r.1, ⟨calls, r.2⟩)
  | (t, .world a) => (s.world.step lockClasses (t, a)).map fun r => (r.1, ⟨s.calls, r.2⟩)
  | (t, .init o k) =>
    if s.calls.lock o = none then
      (s.world.step lockClasses (t, .alloc k true)).map fun r =>
        (r.1, ⟨{ s.calls with lock := Function.update s.calls.lock o (some k) }, r.2⟩)
    else none
  | (t, .dealloc o) =>
    match s.calls.lock o with
    | none => some ([], s)
    | some k =>
      (s.world.step lockClasses (t, .release k)).map fun r =>
        (r.1, ⟨{ s.calls with lock := Function.update s.calls.lock o none }, r.2⟩)

/-- No objects and no locks. -/
def created (hasMap : Bool) : Locks Thread Obj Lock where
  calls := ⟨fun _ => [], fun _ => none, fun _ => none, fun _ => none⟩
  world := .init lockClasses hasMap fun _ => .isThreadsafe

variable [Fintype Obj]

/-- The objects that have this lock. -/
def holders (s : Locks Thread Obj Lock) (k : Lock) : ℕ :=
  Holdings.count Finset.univ s.calls.lock k

/-- What is left to the users of the locks.

A lock is replaced only if no other thread has read it for a call in flight, and with a pool in
place. No object is deallocated during a call of it. Other code gives up references of its own
only. A thread does not release a lock with a pool while it has calls in flight that have read it.
-/
def Legal (s : Locks Thread Obj Lock) : Thread × LocksAct Obj Lock → Prop
  | (t, .calls a) => ∀ r ∈ s.calls.stored t a, (s.world.pools t).config.pools ≠ [] ∧
    ∀ u, u ≠ t → ∀ F ∈ s.calls.stack u, F.obj = r.1 → F.stage.lock = none
  | (t, .world a) => s.world.PoolInPlace (t, a) ∧
    (∀ k, s.holders k + (givenUp a).count k ≤ s.world.owners k) ∧
      ∀ r ∈ s.world.step lockClasses (t, a), ∀ F ∈ s.calls.stack t, ∀ k ∈ F.stage.lock,
        World.releases r.1 k = 0
  | (_, .init _ _) => True
  | (_, .dealloc o) => ∀ u, ∀ F ∈ s.calls.stack u, F.obj ≠ o

end Locks

section World

variable {w w' : World Thread Lock} {t : Thread} {a : Access.Act Lock}
  {es : List (Pool.Event Lock)}

/-- References are given up by the acts that do so. -/
theorem owners_step (h : w.step lockClasses (t, a) = some (es, w')) (k : Lock) :
    w.owners k ≤ w'.owners k + (givenUp a).count k := by
  cases a with
  | pool act =>
    obtain ⟨-, s, -, rfl⟩ := step_pool_eq h
    exact Nat.le_add_of_sub_le le_rfl
  | alloc q isThreadsafe =>
    obtain ⟨-, rfl⟩ := step_alloc_eq h
    by_cases hk : k = q
    · subst hk
      simp only [Function.update_self]
      omega
    · simp [hk]
  | retain q =>
    obtain ⟨-, rfl⟩ := step_retain_eq h
    by_cases hk : k = q
    · subst hk
      simp only [Function.update_self]
      omega
    · simp [hk]
  | release q =>
    obtain ⟨-, rfl⟩ := step_release_eq h
    by_cases hk : k = q
    · subst hk
      simp only [givenUp, Function.update_self, List.count_singleton_self]
      omega
    · simp [hk]
  | relinquish q =>
    obtain ⟨-, -, s, -, hw', -⟩ := step_relinquish h
    rw [hw']
    exact Nat.le_add_right _ _
  | gain q =>
    obtain ⟨-, s, -, rfl⟩ := step_gain_eq h
    exact Nat.le_add_right _ _

variable [Fintype Thread]

/-- A thread that does not release a lock keeps it in its pools, whatever the others do. -/
theorem le_pending_step (hw : w.Sound lockClasses) (h : w.step lockClasses (t, a) = some (es, w'))
    {u : Thread} {k : Lock} (hreleases : u = t → World.releases es k = 0) :
    pending (w.pools u) k ≤ pending (w'.pools u) k := by
  have hupdate {s : Pool.State Lock} (hs : u = t → pending (w.pools t) k ≤ pending s k) :
      pending (w.pools u) k ≤ pending (Function.update w.pools t s u) k := by
    by_cases hu : u = t
    · subst hu
      simpa using hs rfl
    · simp [hu]
  cases a with
  | pool act =>
    obtain ⟨-, s, hstep, rfl⟩ := step_pool_eq h
    refine hupdate fun hu => ?_
    have hpending := pending_step hstep (hw.pools t) k
    have := hreleases hu
    omega
  | alloc q isThreadsafe =>
    obtain ⟨-, rfl⟩ := step_alloc_eq h
    exact le_rfl
  | retain q =>
    obtain ⟨-, rfl⟩ := step_retain_eq h
    exact le_rfl
  | release q =>
    obtain ⟨-, rfl⟩ := step_release_eq h
    exact le_rfl
  | relinquish q =>
    obtain ⟨-, -, s, hs, hw', -⟩ := step_relinquish h
    rw [hw']
    refine hupdate fun hu => ?_
    rcases hs with ⟨rfl, -⟩ | ⟨owners, hs⟩
    · exact le_rfl
    · have hpending := pending_removal (w.pools t) [q] owners k
      rw [← hs, hreleases hu, Nat.zero_add] at hpending
      exact hpending.ge
  | gain q =>
    obtain ⟨-, s, hstep, rfl⟩ := step_gain_eq h
    refine hupdate fun hu => ?_
    have hpending := pending_step hstep (hw.pools t) k
    have := hreleases hu
    omega

/-- An autoreleased lock is in a pool of the thread. -/
theorem autoreleaseLock_spec {lock : Option Lock} (hw : w.Sound lockClasses)
    (hpools : (w.pools t).config.pools ≠ []) (h : autoreleaseLock w t lock = some (es, w')) :
    w'.Sound lockClasses ∧
      (∀ k, w'.owners k + (if lock = some k then 1 else 0) = w.owners k) ∧
      ∀ u k, pending (w.pools u) k + (if u = t ∧ lock = some k then 1 else 0) ≤
        pending (w'.pools u) k := by
  cases lock with
  | none =>
    obtain ⟨rfl, rfl⟩ := Prod.mk.inj (Option.some.inj h)
    exact ⟨hw, by simp, by simp⟩
  | some q =>
    have hsound := sound_pool hw (fun _ => hpools) h
    obtain ⟨hguard, s, hstep, rfl⟩ := step_pool_eq h
    have hq : 1 ≤ w.owners q := by simpa [handedOver] using hguard q (by simp [handedOver])
    refine ⟨hsound, fun k => ?_, fun u k => ?_⟩
    · by_cases hk : q = k
      · subst hk
        simp [handedOver]
        omega
      · simp [handedOver, hk]
    · by_cases hu : u = t
      · subst hu
        have hpending := pending_step hstep (hw.pools u) k
        rw [additions_step hstep rfl fun _ => hpools, releases_autorelease hstep, handedOver,
          List.count_singleton] at hpending
        simp only [Function.update_self]
        by_cases hk : q = k
        · subst hk
          simp at hpending ⊢
          omega
        · simp [hk] at hpending ⊢
          omega
      · simp [hu]

theorem retainLock_spec {lock : Option Lock} (hw : w.Sound lockClasses)
    (h : retainLock w t lock = some (es, w')) :
    w'.Sound lockClasses ∧ w'.pools = w.pools ∧
      ∀ k, w'.owners k = w.owners k + if lock = some k then 1 else 0 := by
  cases lock with
  | none =>
    obtain ⟨rfl, rfl⟩ := Prod.mk.inj (Option.some.inj h)
    exact ⟨hw, rfl, by simp⟩
  | some q =>
    have hstep : w.step lockClasses (t, .retain q) = some (es, w') := h
    have hsound := sound_retain hw hstep
    obtain ⟨-, rfl⟩ := step_retain_eq hstep
    refine ⟨hsound, rfl, fun k => ?_⟩
    by_cases hk : q = k
    · subst hk
      simp
    · simp [hk, Ne.symm hk]

/-- What replacing the lock of an object does to the locks. -/
theorem replaceLock_spec {old lock : Option Lock} (hw : w.Sound lockClasses)
    (hpools : (w.pools t).config.pools ≠ []) (h : replaceLock w t old lock = some (es, w')) :
    w'.Sound lockClasses ∧
      (∀ k, w'.owners k + (if old = some k then 1 else 0) =
        w.owners k + if lock = some k then 1 else 0) ∧
      ∀ u k, pending (w.pools u) k + (if u = t ∧ old = some k then 1 else 0) ≤
        pending (w'.pools u) k := by
  obtain ⟨⟨fs, w₁⟩, hautorelease, hmap⟩ := Option.bind_eq_some_iff.mp h
  obtain ⟨⟨gs, w₂⟩, hretain, heq⟩ := Option.map_eq_some_iff.mp hmap
  obtain ⟨-, rfl⟩ := Prod.mk.inj heq
  obtain ⟨hw₁, howners₁, hpending⟩ := autoreleaseLock_spec hw hpools hautorelease
  obtain ⟨hw₂, hsame, howners₂⟩ := retainLock_spec hw₁ hretain
  refine ⟨hw₂, fun k => ?_, fun u k => ?_⟩
  · rw [howners₂ k, Nat.add_right_comm, howners₁ k]
  · rw [hsame]
    exact hpending u k

end World

namespace State

variable {s s' : State Thread Obj Lock} {t : Thread} {a : Act Obj Lock}

/-- A lock was read for a call before, or it is read from the object now. -/
theorem Change.stage_lock (h : s.Change t a s') {u : Thread} {G : Frame Obj Lock}
    (hG : G ∈ s'.stack u) {k : Lock} (hk : G.stage.lock = some k) :
    (∃ F ∈ s.stack u, F.obj = G.obj ∧ F.stage.lock = some k) ∨
      a = .readLock ∧ s.lock G.obj = some k := by
  have hold (hmem : G ∈ s.stack u) : ∃ F ∈ s.stack u, F.obj = G.obj ∧ F.stage.lock = some k :=
    ⟨G, hmem, rfl, hk⟩
  have hnew {o : Obj} {m : Message Obj Lock} {i : Implementation} : G ≠ .dispatched o m i := by
    rintro rfl
    cases i <;> simp [Frame.dispatched, Stage.lock] at hk
  by_cases hu : u = t
  · subst hu
    -- the innermost call goes on, or it is not there any more
    have hgoes {F F' : Frame Obj Lock} {below : List (Frame Obj Lock)}
        (hst : s.stack u = F :: below) (hmem : G ∈ F' :: below) (hobj : F.obj = F'.obj)
        (hlock : F.stage.lock = F'.stage.lock) :
        ∃ F ∈ s.stack u, F.obj = G.obj ∧ F.stage.lock = some k := by
      rcases List.mem_cons.mp hmem with rfl | hbelow
      · exact ⟨F, by rw [hst]; exact List.mem_cons_self, hobj, hlock.trans hk⟩
      · exact hold (by rw [hst]; exact List.mem_cons_of_mem _ hbelow)
    cases h with
    | dispatch =>
      rw [setStack_self] at hG
      exact .inl (hold (List.mem_of_ne_of_mem hnew hG))
    | readLock hst hsent =>
      rw [setStack_self] at hG
      rcases List.mem_cons.mp hG with rfl | hbelow
      · exact .inr ⟨rfl, hk⟩
      · exact .inl (hold (by rw [hst]; exact List.mem_cons_of_mem _ hbelow))
    | acquire hst hread hlock =>
      rw [setStack_self] at hG
      exact .inl (hgoes hst hG rfl (by rw [hread]; rfl))
    | compare body hst | store hst =>
      rw [setStack_self] at hG
      exact .inl (hgoes hst hG rfl rfl)
    | forward lock hst =>
      rw [setStack_self] at hG
      exact .inl (hgoes hst (List.mem_of_ne_of_mem hnew hG) rfl rfl)
    | ret hst hinside hunlock =>
      rw [setStack_self] at hG
      exact .inl (hold (by rw [hst]; exact List.mem_cons_of_mem _ hG))
  · refine .inl (hold ?_)
    cases h with
    | acquire hst hread hlock =>
      rwa [setStack_of_ne _ hu, (lockLock_spec hlock).1] at hG
    | ret hst hinside hunlock =>
      rwa [setStack_of_ne _ hu, (lockUnlock_spec hunlock).1] at hG
    | dispatch | readLock | compare | store | forward => rwa [setStack_of_ne _ hu] at hG

/-- Other steps leave the locks of the objects alone. -/
theorem lock_of_stored_eq_none (h : s.step (t, a) = some s') (hstored : s.stored t a = none) :
    s'.lock = s.lock := by
  cases step_change h with
  | acquire hst hread hlock => exact (lockLock_spec hlock).2.1
  | ret hst hinside hunlock => exact (lockUnlock_spec hunlock).2.1
  | @store F below lock hst hbody =>
    obtain ⟨o, locking, body, stage⟩ := F
    obtain rfl : body = .storeLock lock := hbody
    simp [stored, hst] at hstored
  | dispatch | readLock | compare | forward => rfl

theorem lock_of_stored {o : Obj} {lock : Option Lock} (h : s.step (t, a) = some s')
    (hstored : s.stored t a = some (o, lock)) :
    a = .share ∧ s'.lock = Function.update s.lock o lock := by
  cases a with
  | share =>
    rw [stored] at hstored
    split at hstored
    · next p locking q stage below hst =>
      obtain ⟨rfl, rfl⟩ := Prod.mk.inj (Option.some.inj hstored)
      cases stage with
      | inside held =>
        simp only [step, hst] at h
        obtain rfl := Option.some.inj h
        exact ⟨rfl, rfl⟩
      | sent => simp [step, hst] at h
      | read lock => simp [step, hst] at h
    · cases hstored
  | _ => simp [stored] at hstored

end State

namespace Locks

variable [Fintype Thread] [Fintype Obj] {s s' : Locks Thread Obj Lock} {t : Thread}
  {es : List (Pool.Event Lock)}

/-- The invariant: every object owns its lock, and a lock that was read for a call is still that of
the object, or it is in a pool of the thread. -/
structure Sound (s : Locks Thread Obj Lock) : Prop where
  world : s.world.Sound lockClasses
  held : s.calls.Held
  owned : ∀ k, s.holders k ≤ s.world.owners k
  kept : ∀ t, ∀ F ∈ s.calls.stack t, ∀ k, F.stage.lock = some k →
    s.calls.lock F.obj = some k ∨ 0 < pending (s.world.pools t) k

omit [DecidableEq Obj] in
theorem sound_created (hasMap : Bool) : (created hasMap : Locks Thread Obj Lock).Sound where
  world := sound_init hasMap _
  held t k := by simp [created, RecursiveLock.depth]
  owned k := by
    rw [holders, Holdings.count_eq_zero fun o _ => by simp [created]]
    exact Nat.zero_le _
  kept t F hF := by simp [created] at hF

/-- A step of the calls. -/
theorem Sound.calls {a : Act Obj Lock} (hs : s.Sound) (hlegal : s.Legal (t, .calls a))
    (h : s.step (t, .calls a) = some (es, s')) : s'.Sound := by
  obtain ⟨calls, hstep, h⟩ := Option.bind_eq_some_iff.mp h
  have hchange := State.step_change hstep
  cases hstored : s.calls.stored t a with
  | none =>
    simp only [hstored] at h
    obtain ⟨-, rfl⟩ := Prod.mk.inj (Option.some.inj h)
    have hlock := State.lock_of_stored_eq_none hstep hstored
    refine ⟨hs.world, hchange.held hs.held, fun k => ?_, fun u G hG k hk => ?_⟩
    · rw [holders]
      simp only [hlock]
      exact hs.owned k
    · simp only [hlock]
      rcases hchange.stage_lock hG hk with ⟨F, hF, hobj, hFk⟩ | ⟨-, hnow⟩
      · rw [← hobj]
        exact hs.kept u F hF k hFk
      · exact .inl hnow
  | some stored =>
    obtain ⟨o, lock⟩ := stored
    simp only [hstored] at h
    obtain ⟨⟨fs, w⟩, hreplace, heq⟩ := Option.map_eq_some_iff.mp h
    obtain ⟨-, rfl⟩ := Prod.mk.inj heq
    obtain ⟨hpools, hothers⟩ := hlegal (o, lock) hstored
    obtain ⟨hworld, howners, hpending⟩ := replaceLock_spec hs.world hpools hreplace
    obtain ⟨hshare, hlock⟩ := State.lock_of_stored hstep hstored
    refine ⟨hworld, hchange.held hs.held, fun k => ?_, fun u G hG k hk => ?_⟩
    · have hcount := Holdings.count_update (r := k) s.calls.lock (Finset.mem_univ o) lock
      have hold := hs.owned k
      have hnew := howners k
      rw [holders] at hold ⊢
      simp only [hlock]
      omega
    · obtain ⟨F, hF, hobj, hFk⟩ : ∃ F ∈ s.calls.stack u, F.obj = G.obj ∧ F.stage.lock = some k := by
        rcases hchange.stage_lock hG hk with hread | ⟨hreadLock, -⟩
        · exact hread
        · exact absurd (hshare.symm.trans hreadLock) (by simp)
      have hmore := hpending u k
      rw [← hobj]
      simp only [hlock]
      rcases hs.kept u F hF k hFk with hnow | hpool
      · by_cases ho : F.obj = o
        · -- nobody else has read it, and in a pool of the thread it stays
          have hu : u = t := by
            by_contra hu
            rw [hothers u hu F hF ho] at hFk
            cases hFk
          rw [ho] at hnow
          rw [if_pos ⟨hu, hnow⟩] at hmore
          exact .inr (by omega)
        · rw [Function.update_of_ne ho]
          exact .inl hnow
      · exact .inr (by omega)

/-- Work that has nothing to do with the calls. -/
theorem Sound.worldStep {a : Access.Act Lock} (hs : s.Sound) (hlegal : s.Legal (t, .world a))
    (h : s.step (t, .world a) = some (es, s')) : s'.Sound := by
  obtain ⟨⟨fs, w⟩, hstep, heq⟩ := Option.map_eq_some_iff.mp h
  obtain ⟨-, rfl⟩ := Prod.mk.inj heq
  obtain ⟨hplace, hgiven, hreap⟩ := hlegal
  refine ⟨sound_step hs.world hplace hstep, hs.held, fun k => ?_, fun u F hF k hk => ?_⟩
  · exact Nat.le_of_add_le_add_right ((hgiven k).trans (owners_step hstep k))
  · rcases hs.kept u F hF k hk with hnow | hpool
    · exact .inl hnow
    · refine .inr (hpool.trans_le (le_pending_step hs.world hstep ?_))
      rintro rfl
      exact hreap _ hstep F hF k hk

/-- A new object with a lock of its own. -/
theorem Sound.init {o : Obj} {k : Lock} (hs : s.Sound)
    (h : s.step (t, .init o k) = some (es, s')) : s'.Sound := by
  rw [step] at h
  split at h
  case isFalse => cases h
  case isTrue hnone =>
    obtain ⟨⟨fs, w⟩, hstep, heq⟩ := Option.map_eq_some_iff.mp h
    obtain ⟨-, rfl⟩ := Prod.mk.inj heq
    have hsound := sound_alloc hs.world hstep
    obtain ⟨-, rfl⟩ := step_alloc_eq hstep
    refine ⟨hsound, hs.held, fun q => ?_, fun u F hF q hq => ?_⟩
    · have hcount := Holdings.count_update (r := q) s.calls.lock (Finset.mem_univ o) (some k)
      rw [hnone] at hcount
      have hold := hs.owned q
      rw [holders] at hold ⊢
      by_cases hqk : q = k
      · subst hqk
        simp only [Function.update_self]
        simp at hcount
        omega
      · simp [Ne.symm hqk] at hcount
        simp only [Function.update_of_ne hqk]
        omega
    · rcases hs.kept u F hF q hq with hnow | hpool
      · refine .inl ((Function.update_of_ne ?_ _ _).trans hnow)
        rintro rfl
        rw [hnone] at hnow
        cases hnow
      · exact .inr hpool

/-- An object gives up its lock. -/
theorem Sound.dealloc {o : Obj} (hs : s.Sound) (hlegal : s.Legal (t, .dealloc o))
    (h : s.step (t, .dealloc o) = some (es, s')) : s'.Sound := by
  rw [step] at h
  split at h
  · obtain ⟨-, rfl⟩ := Prod.mk.inj (Option.some.inj h)
    exact hs
  · next k hk =>
    obtain ⟨⟨fs, w⟩, hstep, heq⟩ := Option.map_eq_some_iff.mp h
    obtain ⟨-, rfl⟩ := Prod.mk.inj heq
    have hsound := sound_release hs.world hstep
    obtain ⟨-, rfl⟩ := step_release_eq hstep
    refine ⟨hsound, hs.held, fun q => ?_, fun u F hF q hq => ?_⟩
    · have hcount := Holdings.count_update (r := q) s.calls.lock (Finset.mem_univ o) none
      rw [hk] at hcount
      have hold := hs.owned q
      rw [holders] at hold ⊢
      by_cases hqk : q = k
      · subst hqk
        simp only [Function.update_self]
        simp at hcount
        omega
      · simp [Ne.symm hqk] at hcount
        simp only [Function.update_of_ne hqk]
        omega
    · simp only [Function.update_of_ne (hlegal u F hF)]
      exact hs.kept u F hF q hq

theorem Sound.step {act : Thread × LocksAct Obj Lock} (hs : s.Sound) (hlegal : s.Legal act)
    (h : s.step act = some (es, s')) : s'.Sound := by
  obtain ⟨t, act⟩ := act
  cases act with
  | calls a => exact hs.calls hlegal h
  | world a => exact hs.worldStep hlegal h
  | init o k => exact hs.init h
  | dealloc o => exact hs.dealloc hlegal h

/-- What holds of the locks. -/
structure Lives (s : Locks Thread Obj Lock) : Prop where
  /-- No lock is released too often, and none that nobody owns is left. -/
  retainCount : ∀ k, s.world.retainCount k =
    s.world.owners k + ∑ t, pending (s.world.pools t) k + s.world.relinquished k
  owned : ∀ k, s.holders k ≤ s.world.owners k
  /-- A lock that a call has read and will lock or unlock is alive. -/
  alive : ∀ t, ∀ F ∈ s.calls.stack t, ∀ k, F.stage.lock = some k → 0 < s.world.retainCount k
  /-- A lock is deallocated unlocked. -/
  unlocked : ∀ k, s.world.retainCount k = 0 → s.calls.recursiveLock k = none

omit [DecidableEq Obj] in
theorem Sound.lives (hs : s.Sound) : s.Lives := by
  have hcount (k : Lock) : s.world.retainCount k =
      s.world.owners k + ∑ t, pending (s.world.pools t) k + s.world.relinquished k :=
    hs.world.balanced k rfl
  have halive (t : Thread) (F : Frame Obj Lock) (hF : F ∈ s.calls.stack t) (k : Lock)
      (hk : F.stage.lock = some k) : 0 < s.world.retainCount k := by
    rw [hcount k]
    rcases hs.kept t F hF k hk with hnow | hpool
    · have hpos : 0 < s.holders k := by
        rw [holders, Holdings.count, Finset.card_pos]
        exact ⟨F.obj, by simpa using hnow⟩
      have := hs.owned k
      omega
    · have := pending_le s.world t k
      rw [World.pending] at this
      omega
  refine ⟨hcount, hs.owned, halive, fun k hzero => ?_⟩
  refine RecursiveLock.eq_none_of_depth_eq_zero fun t => ?_
  rw [← hs.held t k, List.countP_eq_zero]
  intro F hF hholds
  have hlock : F.stage.lock = some k := by
    rw [show F.stage = .inside (some k) from of_decide_eq_true hholds]
    rfl
  have := halive t F hF k hlock
  omega

/-- In every run that leaves the locks to their users. -/
theorem lives_of_run {hasMap : Bool} (hrun : RunWhile step Legal (created hasMap) es s) :
    s.Lives := by
  have hsound : s.Sound :=
    hrun.invariant Sound (fun hlegal hs hstep => hs.step hlegal hstep) (sound_created hasMap)
  exact hsound.lives

instance (w : World Thread Lock) :
    ∀ act : Thread × Access.Act Lock, Decidable (w.PoolInPlace act)
  | (t, .pool act) =>
    inferInstanceAs (Decidable (handedOver act ≠ [] → (w.pools t).config.pools ≠ []))
  | (t, .gain _) => inferInstanceAs (Decidable ((w.pools t).config.pools ≠ []))
  | (_, .alloc _ _) | (_, .retain _) | (_, .release _) | (_, .relinquish _) =>
    inferInstanceAs (Decidable True)

instance [Fintype Lock] (s : Locks Thread Obj Lock) :
    ∀ act : Thread × LocksAct Obj Lock, Decidable (s.Legal act)
  | (t, .calls a) => inferInstanceAs (Decidable (∀ r ∈ s.calls.stored t a, _ ∧ _))
  | (t, .world a) => inferInstanceAs (Decidable (s.world.PoolInPlace (t, a) ∧ _ ∧ _))
  | (_, .init _ _) => inferInstanceAs (Decidable True)
  | (_, .dealloc o) => inferInstanceAs (Decidable (∀ u, ∀ F ∈ s.calls.stack u, F.obj ≠ o))

/-- The object `false` gets the lock of the object `true` in a method of its own. -/
def shared : List (Unit × LocksAct Bool Bool) :=
  [.init false false, .init true true, .world (.pool .push),
    .calls (.call false (.selector none)), .calls .readLock, .calls .acquire,
    .calls (.call false (.shareRecursiveLockWithObject (some true))), .calls .share,
    .calls .readLock, .calls .acquire, .calls .share, .calls .share, .calls .ret,
    .calls .ret].map (Prod.mk ())

/-- The pool is popped, with the last reference to a lock in it. -/
def popped : List (Unit × LocksAct Bool Bool) :=
  [.world (.pool (.pop 0)), .world (.pool (.run false)), .world (.pool (.run true)),
    .world (.pool .leave)].map (Prod.mk ())

/-- When the calls have returned, the lock that was replaced is deallocated. -/
theorem lives_of_run_shared : ∃ (s : Locks Unit Bool Bool) (es : List (Pool.Event Bool)),
    (RunWhile step Legal (created false) es s ∧ s.world.retainCount false = 0 ∧
      s.world.retainCount true = 2 ∧ s.calls.lock false = some true) ∧ s.Lives := by
  have h : (execWhile step Legal (created false)
      (shared ++ ((), .calls .ret) :: popped)).map
        (fun r => (r.2.world.retainCount false, r.2.world.retainCount true,
          r.2.calls.lock false)) = some (0, 2, some true) := by
    decide +kernel
  obtain ⟨⟨es, s⟩, hexec, hr⟩ := Option.map_eq_some_iff.mp h
  obtain ⟨hfalse, hr⟩ := Prod.mk.inj hr
  obtain ⟨htrue, hlock⟩ := Prod.mk.inj hr
  have hrun := runWhile_of_execWhile _ hexec
  exact ⟨s, es, ⟨hrun, hfalse, htrue, hlock⟩, lives_of_run hrun⟩

/-- If the pool is popped before, the thread has a lock locked that is no more. -/
example : (exec step (created false) (shared ++ popped)).map
    (fun r => (r.2.world.retainCount false, r.2.calls.recursiveLock false)) =
      some (0, some ((), 0)) := by
  decide +kernel

end Locks

end MulleObjC.Autolock
