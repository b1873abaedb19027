import MulleObjC.Autolock.Calls

/-!
# Mutual exclusion of locking methods

A thread in the body of a locking method holds the lock of the object, either the lock
that it read for this call or one that it locked before. The lock of an object can be
replaced under a call in flight, so this is no property of all runs. It is a property of
the runs in which nobody replaces a lock that another thread has read, and a thread that
replaces a lock of an object it is working on keeps the new one locked for that long.
-/

namespace MulleObjC.Autolock

open Machine

variable {Thread Obj Lock : Type*}

/-- The lock that was read for a call. -/
def Stage.lock : Stage Lock → Option Lock
  | .sent => none
  | .read lock | .inside lock => lock

/-- The call will unlock the lock. -/
def Frame.Holds (k : Lock) (F : Frame Obj Lock) : Prop := F.stage = .inside (some k)

instance [DecidableEq Lock] (k : Lock) (F : Frame Obj Lock) : Decidable (F.Holds k) :=
  inferInstanceAs (Decidable (F.stage = _))

/-- The call runs a locking method of the object or is about to, without reading the lock
of the object again. -/
def Frame.Claims (o : Obj) (F : Frame Obj Lock) : Prop :=
  F.obj = o ∧ F.isLocking = true ∧ F.stage ≠ .sent

/-- Every call that claims the object uses the lock, or a call below holds it. -/
def Covered (k : Lock) (o : Obj) : List (Frame Obj Lock) → Prop
  | [] => True
  | F :: below =>
    (F.Claims o → F.stage.lock = some k ∨ ∃ K ∈ below, K.Holds k) ∧ Covered k o below

/-- Stacks that differ in what the innermost method has to do are covered alike. -/
theorem covered_body {k : Lock} {o : Obj} {F : Frame Obj Lock} {below : List (Frame Obj Lock)}
    {body : Body Obj Lock} :
    Covered k o ({ F with body := body } :: below) ↔ Covered k o (F :: below) := Iff.rfl

/-- As `covered_body`, for the locks that calls hold. -/
theorem countP_holds_body [DecidableEq Lock] {k : Lock} {F : Frame Obj Lock}
    {below : List (Frame Obj Lock)} {body : Body Obj Lock} :
    ({ F with body := body } :: below).countP (fun F => F.Holds k) =
      (F :: below).countP (fun F => F.Holds k) := by
  rw [List.countP_cons, List.countP_cons]
  rfl

/-- A dispatched call holds no lock. -/
theorem not_holds_dispatched {o : Obj} {m : Message Obj Lock} {i : Implementation} {k : Lock} :
    ¬ (Frame.dispatched o m i).Holds k := by
  cases i <;> simp [Frame.dispatched, Frame.Holds]

/-- A stack whose calls do not claim the object. -/
theorem covered_of_not_claims {k : Lock} {o : Obj} {stack : List (Frame Obj Lock)}
    (h : ∀ F ∈ stack, ¬ F.Claims o) : Covered k o stack := by
  induction stack with
  | nil => trivial
  | cons F below ih =>
    obtain ⟨hF, hbelow⟩ := List.forall_mem_cons.mp h
    exact ⟨fun hclaims => absurd hclaims hF, ih hbelow⟩

/-- Entering the method of a call does not take a lock away from the calls above. -/
theorem Covered.enter {k : Lock} {o : Obj} {F : Frame Obj Lock} {below : List (Frame Obj Lock)}
    {lock : Option Lock} (hread : F.stage = .read lock) (h : Covered k o (F :: below)) :
    Covered k o ({ F with stage := .inside lock } :: below) := by
  refine ⟨fun hclaims => ?_, h.2⟩
  have hF : F.Claims o := ⟨hclaims.1, hclaims.2.1, by simp [hread]⟩
  have := h.1 hF
  rw [hread] at this
  exact this

/-- A thread in the body of a locking method of a covered object holds the lock. -/
theorem Covered.exists_holds {k : Lock} {o : Obj} {stack : List (Frame Obj Lock)}
    (h : Covered k o stack) {F : Frame Obj Lock} (hF : F ∈ stack) (hobj : F.obj = o)
    (hlocking : F.isLocking = true) {lock : Option Lock} (hinside : F.stage = .inside lock) :
    ∃ K ∈ stack, K.Holds k := by
  induction stack with
  | nil => cases hF
  | cons G below ih =>
    rcases List.mem_cons.mp hF with rfl | hmem
    · rcases h.1 ⟨hobj, hlocking, by simp [hinside]⟩ with hlock | ⟨K, hK, hholds⟩
      · rw [hinside] at hlock
        exact ⟨F, List.mem_cons_self, by rw [Frame.Holds, hinside, ← hlock]; rfl⟩
      · exact ⟨K, List.mem_cons_of_mem _ hK, hholds⟩
    · obtain ⟨K, hK, hholds⟩ := ih h.2 hmem
      exact ⟨K, List.mem_cons_of_mem _ hK, hholds⟩

namespace State

variable {s s' : State Thread Obj Lock} {t : Thread}

/-- The calls of an object with a lock are covered by it. An object without a lock is
called by one thread. -/
structure Guarded (s : State Thread Obj Lock) : Prop where
  covered : ∀ o k, s.lock o = some k → ∀ t, Covered k o (s.stack t)
  affine : ∀ o, s.lock o = none → ∀ t, ∀ F ∈ s.stack t, F.Claims o → s.affinity o = some t

/-- The innermost call is replaced by one that claims nothing new. -/
theorem Guarded.affine_replace (h : s.Guarded) {F G : Frame Obj Lock}
    {below : List (Frame Obj Lock)} (hst : s.stack t = F :: below) {o : Obj}
    (hnone : s.lock o = none) (hG : G.Claims o → F.Claims o ∨ s.affinity o = some t) :
    ∀ H ∈ G :: below, H.Claims o → s.affinity o = some t := by
  have haffine := h.affine o hnone t
  rw [hst, List.forall_mem_cons] at haffine
  refine List.forall_mem_cons.mpr ⟨fun hclaims => ?_, haffine.2⟩
  rcases hG hclaims with hF | haffinity
  · exact haffine.1 hF
  · exact haffinity

/-- Locks and unlocks do not change what guards the calls. -/
theorem Guarded.congr (h : s.Guarded) (hstack : s'.stack = s.stack) (hlock : s'.lock = s.lock)
    (haffinity : s'.affinity = s.affinity) : s'.Guarded := by
  constructor
  · rw [hstack, hlock]
    exact h.covered
  · rw [hstack, hlock, haffinity]
    exact h.affine

variable [DecidableEq Thread]

/-- Replacing one stack. -/
theorem Guarded.setStack (h : s.Guarded) {stack : List (Frame Obj Lock)}
    (hcovered : ∀ o k, s.lock o = some k → Covered k o stack)
    (haffine : ∀ o, s.lock o = none → ∀ F ∈ stack, F.Claims o → s.affinity o = some t) :
    (s.setStack t stack).Guarded := by
  constructor
  · intro o k hk u
    by_cases hu : u = t
    · subst hu
      simpa [State.setStack] using hcovered o k hk
    · simpa [State.setStack, hu] using h.covered o k hk u
  · intro o hnone u
    by_cases hu : u = t
    · subst hu
      simpa [State.setStack] using haffine o hnone
    · simpa [State.setStack, hu] using h.affine o hnone u

/-- A lock that no other thread has read is replaced by one that covers the thread's own
calls. -/
theorem Guarded.storeLock [DecidableEq Obj] (h : s.Guarded) {o : Obj} {lock : Option Lock}
    (hpermitted : (∀ u, u ≠ t → ∀ G ∈ s.stack u, ¬ G.Claims o) ∧
      ∀ k, lock = some k → Covered k o (s.stack t)) : (s.storeLock t o lock).Guarded := by
  obtain ⟨hothers, hown⟩ := hpermitted
  constructor
  · intro p k hk u
    by_cases hp : p = o
    · subst hp
      by_cases hu : u = t
      · subst hu
        exact hown k (by simpa [State.storeLock] using hk)
      · exact covered_of_not_claims (hothers u hu)
    · exact h.covered p k (by simpa [State.storeLock, hp] using hk) u
  · intro p hnone u F hF hclaims
    by_cases hp : p = o
    · subst hp
      obtain rfl : lock = none := by simpa [State.storeLock] using hnone
      by_cases hu : u = t
      · simp [State.storeLock, hu]
      · exact absurd hclaims (hothers u hu F hF)
    · have hold := h.affine p (by simpa [State.storeLock, hp] using hnone) u F hF hclaims
      simpa [State.storeLock, hp] using hold

variable [DecidableEq Lock]

/-- The locks are locked as often as calls in flight will unlock them. -/
def Held (s : State Thread Obj Lock) : Prop :=
  ∀ t k, (s.stack t).countP (fun F => F.Holds k) = RecursiveLock.depth t (s.recursiveLock k)

/-- Replacing one stack, every count but those of the thread stays. -/
theorem Held.setStack (h : s.Held) {stack : List (Frame Obj Lock)}
    (hstack : ∀ k, stack.countP (fun F => F.Holds k) =
      (s.stack t).countP (fun F => F.Holds k)) : (s.setStack t stack).Held := by
  intro u k
  by_cases hu : u = t
  · subst hu
    simp only [State.setStack, Function.update_self]
    rw [hstack k]
    exact h u k
  · simp only [State.setStack, Function.update_of_ne hu]
    exact h u k

/-- What locking changes. -/
theorem lockLock_spec {lock : Option Lock} (h : s.lockLock t lock = some s') :
    s'.stack = s.stack ∧ s'.lock = s.lock ∧ s'.affinity = s.affinity ∧
      ∀ u k, RecursiveLock.depth u (s'.recursiveLock k) =
        RecursiveLock.depth u (s.recursiveLock k) + if u = t ∧ lock = some k then 1 else 0 := by
  cases lock with
  | none =>
    obtain rfl : s = s' := by simpa [lockLock] using h
    simp
  | some l =>
    obtain ⟨r, hr, rfl⟩ := Option.map_eq_some_iff.mp h
    refine ⟨rfl, rfl, rfl, fun u k => ?_⟩
    by_cases hk : k = l
    · subst hk
      simp [RecursiveLock.depth_lock hr u]
    · simp [hk, Ne.symm hk]

/-- What unlocking changes. -/
theorem lockUnlock_spec {lock : Option Lock} (h : s.lockUnlock t lock = some s') :
    s'.stack = s.stack ∧ s'.lock = s.lock ∧ s'.affinity = s.affinity ∧
      ∀ u k, RecursiveLock.depth u (s'.recursiveLock k) +
        (if u = t ∧ lock = some k then 1 else 0) = RecursiveLock.depth u (s.recursiveLock k) := by
  cases lock with
  | none =>
    obtain rfl : s = s' := by simpa [lockUnlock] using h
    simp
  | some l =>
    obtain ⟨r, hr, rfl⟩ := Option.map_eq_some_iff.mp h
    refine ⟨rfl, rfl, rfl, fun u k => ?_⟩
    by_cases hk : k = l
    · subst hk
      simp [← RecursiveLock.depth_unlock hr u]
    · simp [hk, Ne.symm hk]

variable [DecidableEq Obj]

/-- What a step can do. -/
inductive Change (s : State Thread Obj Lock) (t : Thread) :
    Act Obj Lock → State Thread Obj Lock → Prop
  | dispatch {a : Act Obj Lock} {o : Obj} {m : Message Obj Lock} {i : Implementation}
      (hunlocked : i = .method → m.isLocking = true → a = .callSuper m ∧
        refreshSuperMethodNofail m.found = .method ∧
          ∃ F below, s.stack t = F :: below ∧ F.obj = o) :
      Change s t a (s.setStack t (.dispatched o m i :: s.stack t))
  | readLock {F : Frame Obj Lock} {below : List (Frame Obj Lock)} (hst : s.stack t = F :: below)
      (hsent : F.stage = .sent) :
      Change s t .readLock (s.setStack t ({ F with stage := .read (s.lock F.obj) } :: below))
  | acquire {F : Frame Obj Lock} {below : List (Frame Obj Lock)} {lock : Option Lock}
      {s₁ : State Thread Obj Lock} (hst : s.stack t = F :: below) (hread : F.stage = .read lock)
      (hlock : s.lockLock t lock = some s₁) :
      Change s t .acquire (s₁.setStack t ({ F with stage := .inside lock } :: below))
  | compare {F : Frame Obj Lock} {below : List (Frame Obj Lock)} (body : Body Obj Lock)
      (hst : s.stack t = F :: below) :
      Change s t .share (s.setStack t ({ F with body := body } :: below))
  | store {F : Frame Obj Lock} {below : List (Frame Obj Lock)} {lock : Option Lock}
      (hst : s.stack t = F :: below) (hbody : F.body = .storeLock lock) :
      Change s t .share
        ((s.storeLock t F.obj lock).setStack t ({ F with body := .code } :: below))
  | forward {F : Frame Obj Lock} {below : List (Frame Obj Lock)} (lock : Option Lock)
      (hst : s.stack t = F :: below) :
      Change s t .share (s.setStack t
        (.dispatched F.obj (.shareRecursiveLock lock) .lockingForward ::
          { F with body := .code } :: below))
  | ret {F : Frame Obj Lock} {below : List (Frame Obj Lock)} {lock : Option Lock}
      {s₁ : State Thread Obj Lock} (hst : s.stack t = F :: below)
      (hinside : F.stage = .inside lock) (hunlock : s.lockUnlock t lock = some s₁) :
      Change s t .ret (s₁.setStack t below)

/-- Every step is one of the changes. -/
theorem step_change {a : Act Obj Lock} (h : s.step (t, a) = some s') : s.Change t a s' := by
  cases a with
  | call o m =>
    simp only [step] at h
    split at h
    · obtain rfl := Option.some.inj h
      refine .dispatch fun hi hlocking => ?_
      simp [Message.isLocking, hi] at hlocking
    · cases h
  | callSuper m =>
    simp only [step] at h
    split at h
    · next o locking lock below hst =>
      obtain rfl := Option.some.inj h
      rw [← hst]
      exact .dispatch fun hi _ => ⟨rfl, hi, _, _, hst, rfl⟩
    · cases h
  | readLock =>
    simp only [step] at h
    split at h
    · next o locking body below hst =>
      obtain rfl := Option.some.inj h
      exact .readLock hst rfl
    · cases h
  | acquire =>
    simp only [step] at h
    split at h
    · next o locking body lock below hst =>
      obtain ⟨s₁, hlock, rfl⟩ := Option.map_eq_some_iff.mp h
      exact .acquire hst rfl hlock
    · cases h
  | share =>
    simp only [step] at h
    split at h
    · next o locking lock held below hst =>
      obtain rfl := Option.some.inj h
      exact .compare _ hst
    · next o locking lock held below hst =>
      obtain rfl := Option.some.inj h
      exact .store hst rfl
    · next o locking other held below hst =>
      obtain rfl := Option.some.inj h
      exact .forward _ hst
    · cases h
  | ret =>
    simp only [step] at h
    split at h
    · next o locking lock below hst =>
      obtain ⟨s₁, hunlock, rfl⟩ := Option.map_eq_some_iff.mp h
      exact .ret hst rfl hunlock
    · cases h

/-- A call that enters its method with a lock has locked it, one that returns unlocks it. -/
theorem Change.held {a : Act Obj Lock} (h : s.Change t a s') (hheld : s.Held) : s'.Held := by
  cases h with
  | dispatch => exact hheld.setStack fun k => by simp [not_holds_dispatched]
  | readLock hst hsent =>
    refine hheld.setStack fun k => ?_
    rw [hst]
    simp [Frame.Holds, hsent]
  | @acquire F below lock s₁ hst hread hlock =>
    obtain ⟨hstack, -, -, hdepth⟩ := lockLock_spec hlock
    intro u k
    have hold := hheld u k
    have hnew := hdepth u k
    by_cases hu : u = t
    · subst hu
      simp only [State.setStack, Function.update_self]
      rw [hst] at hold
      simp only [List.countP_cons, Frame.Holds, hread] at hold ⊢
      simp at hold hnew ⊢
      omega
    · simp only [State.setStack, Function.update_of_ne hu, hstack]
      simp only [hu, false_and, if_false] at hnew
      omega
  | compare body hst => exact hheld.setStack fun k => by rw [hst, countP_holds_body]
  | @store F below lock hst hbody =>
    have hstored : (s.storeLock t F.obj lock).Held := hheld
    refine hstored.setStack fun k => ?_
    rw [countP_holds_body, ← hst]
    rfl
  | forward lock hst =>
    refine hheld.setStack fun k => ?_
    rw [hst, List.countP_cons_of_neg (by simp [not_holds_dispatched]), countP_holds_body]
  | @ret F below lock s₁ hst hinside hunlock =>
    obtain ⟨hstack, -, -, hdepth⟩ := lockUnlock_spec hunlock
    intro u k
    have hold := hheld u k
    have hnew := hdepth u k
    by_cases hu : u = t
    · subst hu
      simp only [State.setStack, Function.update_self]
      rw [hst] at hold
      simp only [List.countP_cons, Frame.Holds, hinside] at hold ⊢
      simp at hold hnew ⊢
      omega
    · simp only [State.setStack, Function.update_of_ne hu, hstack]
      simp only [hu, false_and, if_false] at hnew
      omega

/-- In every run. -/
theorem held_of_run {lock : Obj → Lock} {es : List Empty}
    {cond : State Thread Obj Lock → Thread × Act Obj Lock → Prop}
    (hrun : RunWhile (silent step) cond (created lock) es s') : s'.Held :=
  hrun.invariant Held
    (fun _ hheld hstep => (step_change (silent_eq_some.mp hstep)).held hheld)
    fun t k => by simp [created, RecursiveLock.depth]

/-- Whatever was shared in between, when all calls have returned every lock is free. -/
theorem free_of_stack_eq_nil {lock : Obj → Lock} {es : List Empty}
    (hrun : Run (silent step) (created lock) es s') (hreturned : ∀ t : Thread, s'.stack t = [])
    (k : Lock) : s'.recursiveLock k = none := by
  refine RecursiveLock.eq_none_of_depth_eq_zero fun t => ?_
  rw [← held_of_run hrun t k, hreturned t]
  rfl

/-- The steps that keep locking methods apart.

A super call runs its method without a lock, so it needs a locking method of the object
around it. A call of an object without a lock is for the thread the object belongs to. A
lock is replaced only if no other thread has read it for a call in flight, and only by a
lock that the thread holds around its own calls of the object, or by none. -/
def Permitted (s : State Thread Obj Lock) : Thread × Act Obj Lock → Prop
  | (t, .callSuper m) =>
    m.isLocking = true → refreshSuperMethodNofail m.found = .method →
      ∀ F below, s.stack t = F :: below → s.InBody t F.obj
  | (t, .readLock) =>
    ∀ F below, s.stack t = F :: below → s.lock F.obj = none → s.affinity F.obj = some t
  | (t, .share) =>
    ∀ F below lock, s.stack t = F :: below → F.body = .storeLock lock →
      (∀ u, u ≠ t → ∀ G ∈ s.stack u, ¬ G.Claims F.obj) ∧
        ∀ k, lock = some k → Covered k F.obj (s.stack t)
  | _ => True

/-- A permitted step keeps the calls guarded. -/
theorem Change.guarded {a : Act Obj Lock} (h : s.Change t a s') (hpermitted : s.Permitted (t, a))
    (hguarded : s.Guarded) : s'.Guarded := by
  cases h with
  | @dispatch _ o' m i hunlocked =>
    -- only a super call claims its object at once, and then a call around it does, too
    have hbody (o : Obj) (hclaims : (Frame.dispatched o' m i).Claims o) : s.InBody t o := by
      cases i with
      | lockingForward => exact absurd rfl hclaims.2.2
      | method =>
        obtain ⟨rfl, hmethod, F, below, hst, hobj⟩ := hunlocked rfl hclaims.2.1
        obtain rfl : o' = o := hclaims.1
        exact hobj ▸ hpermitted hclaims.2.1 hmethod F below hst
    refine hguarded.setStack (fun o k hk => ⟨fun hclaims => ?_, hguarded.covered o k hk t⟩)
      (fun o hnone F hF hclaims => ?_)
    · obtain ⟨F, hF, hobj, hlocking, lock, hinside⟩ := hbody o hclaims
      exact .inr ((hguarded.covered o k hk t).exists_holds hF hobj hlocking hinside)
    · rcases List.mem_cons.mp hF with rfl | hmem
      · obtain ⟨F, hF, hobj, hlocking, lock, hinside⟩ := hbody o hclaims
        exact hguarded.affine o hnone t F hF ⟨hobj, hlocking, by simp [hinside]⟩
      · exact hguarded.affine o hnone t F hmem hclaims
  | @readLock F below hst hsent =>
    refine hguarded.setStack (fun o k hk => ?_) fun o hnone =>
      hguarded.affine_replace hst hnone fun hclaims => .inr ?_
    · have hcovered := hguarded.covered o k hk t
      rw [hst] at hcovered
      refine ⟨fun hclaims => .inl ?_, hcovered.2⟩
      obtain rfl : F.obj = o := hclaims.1
      exact hk
    · obtain rfl : F.obj = o := hclaims.1
      exact hpermitted F below hst hnone
  | @acquire F below lock s₁ hst hread hlock =>
    obtain ⟨hstack, hlocks, haffinity, -⟩ := lockLock_spec hlock
    have hguarded₁ := hguarded.congr hstack hlocks haffinity
    rw [← hstack] at hst
    refine hguarded₁.setStack (fun o k hk => ?_) fun o hnone =>
      hguarded₁.affine_replace hst hnone fun hclaims => .inl ?_
    · have hcovered := hguarded₁.covered o k hk t
      rw [hst] at hcovered
      exact hcovered.enter hread
    · exact ⟨hclaims.1, hclaims.2.1, by simp [hread]⟩
  | @compare F below body hst =>
    refine hguarded.setStack (fun o k hk => ?_) fun o hnone =>
      hguarded.affine_replace hst hnone .inl
    rw [covered_body, ← hst]
    exact hguarded.covered o k hk t
  | @store F below lock hst hbody =>
    have hguarded₁ := hguarded.storeLock (hpermitted F below lock hst hbody)
    refine hguarded₁.setStack (fun o k hk => ?_) fun o hnone =>
      hguarded₁.affine_replace hst hnone .inl
    rw [covered_body, ← hst]
    exact hguarded₁.covered o k hk t
  | @forward F below lock hst =>
    refine hguarded.setStack (fun o k hk => ⟨fun hclaims => absurd rfl hclaims.2.2, ?_⟩)
      fun o hnone => List.forall_mem_cons.mpr ⟨fun hclaims => absurd rfl hclaims.2.2,
        hguarded.affine_replace hst hnone .inl⟩
    rw [covered_body, ← hst]
    exact hguarded.covered o k hk t
  | @ret F below lock s₁ hst hinside hunlock =>
    obtain ⟨hstack, hlocks, haffinity, -⟩ := lockUnlock_spec hunlock
    have hguarded₁ := hguarded.congr hstack hlocks haffinity
    rw [← hstack] at hst
    refine hguarded₁.setStack (fun o k hk => ?_) fun o hnone => ?_
    · have hcovered := hguarded₁.covered o k hk t
      rw [hst] at hcovered
      exact hcovered.2
    · have haffine := hguarded₁.affine o hnone t
      rw [hst, List.forall_mem_cons] at haffine
      exact haffine.2

/-- What the calls guarantee in a run of permitted steps. -/
theorem guarded_of_run {lock : Obj → Lock} {es : List Empty}
    (hrun : RunWhile (silent step) Permitted (created lock) es s') :
    s'.Guarded := by
  refine hrun.invariant Guarded ?_ ?_
  · rintro s ⟨t, a⟩ es s' hpermitted hguarded hstep
    exact (step_change (silent_eq_some.mp hstep)).guarded hpermitted hguarded
  · constructor
    · intro o k hk t
      trivial
    · intro o hnone
      cases hnone

/-- In a run of permitted steps, a single thread is in the bodies of the locking methods
of an object. -/
theorem locking_exclusion {lock : Obj → Lock} {es : List Empty}
    (hrun : RunWhile (silent step) Permitted (created lock) es s') {t u : Thread} {o : Obj}
    (ht : s'.InBody t o) (hu : s'.InBody u o) : t = u := by
  have hguarded := guarded_of_run hrun
  obtain ⟨F, hF, hFobj, hFlocking, lockF, hFinside⟩ := ht
  obtain ⟨G, hG, hGobj, hGlocking, lockG, hGinside⟩ := hu
  cases hlock : s'.lock o with
  | none =>
    have haffinity := hguarded.affine o hlock t F hF ⟨hFobj, hFlocking, by simp [hFinside]⟩
    rw [hguarded.affine o hlock u G hG ⟨hGobj, hGlocking, by simp [hGinside]⟩] at haffinity
    exact (Option.some.inj haffinity).symm
  | some k =>
    -- both threads hold the lock that the object has now
    have hheld := held_of_run hrun
    have hdepth {v : Thread} (h : ∃ K ∈ s'.stack v, K.Holds k) :
        0 < RecursiveLock.depth v (s'.recursiveLock k) := by
      rw [← hheld v k, List.countP_pos_iff]
      simpa using h
    exact RecursiveLock.eq_of_depth_pos
      (hdepth ((hguarded.covered o k hlock t).exists_holds hF hFobj hFlocking hFinside))
      (hdepth ((hguarded.covered o k hlock u).exists_holds hG hGobj hGlocking hGinside))

end State

/-- A locking method like any other. -/
def locked : Message ℕ ℕ := .selector (some ⟨true, .other⟩)

/-- In a locking method of the object `1`, its lock is shared with the object `0`. Then the
thread `true` waits for that lock. -/
theorem shared_lock_excludes :
    ∃ (s : State Bool ℕ ℕ) (es : List Empty),
      RunWhile (silent State.step) State.Permitted (.created id) es s ∧ s.lock 0 = some 1 ∧
        s.InBody false 0 ∧ ∀ u, s.InBody u 0 → u = false := by
  have hrun : ∃ (s : State Bool ℕ ℕ) (es : List Empty),
      RunWhile (silent State.step) State.Permitted (.created id) es s ∧ s.lock 0 = some 1 ∧
        s.InBody false 0 := by
    have hlocked {s : State Bool ℕ ℕ} {t : Bool} {F : Frame ℕ ℕ} {below : List (Frame ℕ ℕ)}
        {k : ℕ} (hst : s.stack t = F :: below) (hk : s.lock F.obj = some k) :
        s.Permitted (t, .readLock) := by
      intro G above hG hnone
      rw [hst] at hG
      cases hG
      rw [hk] at hnone
      cases hnone
    have h₀ : RunWhile (silent State.step) State.Permitted (.created id : State Bool ℕ ℕ) [] _ :=
      .refl _
    -- the thread `false` enters the object `1`, then `-shareRecursiveLock:` of the object `0`
    have h₁ := h₀.tail (false, Act.call 1 locked) trivial rfl
    have h₂ := h₁.tail (false, Act.readLock) (hlocked rfl rfl) rfl
    have h₃ := h₂.tail (false, Act.acquire) trivial rfl
    have h₄ := h₃.tail (false, Act.call 0 (.shareRecursiveLock (some 1))) trivial rfl
    have h₅ := h₄.tail (false, Act.readLock) (hlocked rfl rfl) rfl
    have h₆ := h₅.tail (false, Act.acquire) trivial rfl
    have h₇ := h₆.tail (false, Act.share) (by
      intro F below lock hst hbody
      cases hst
      cases hbody) rfl
    have h₈ := h₇.tail (false, Act.share) (by
      intro F below lock hst hbody
      cases hst
      cases hbody
      refine ⟨fun u hu G hG => ?_, fun k hk => ?_⟩
      · obtain rfl : u = true := by simpa using hu
        cases hG
      · cases hk
        refine ⟨fun _ => .inr ⟨_, List.mem_cons_self, rfl⟩, fun hclaims => ?_, trivial⟩
        cases hclaims.1) rfl
    -- both threads call the object `0`
    have h₉ := h₈.tail (false, Act.ret) trivial rfl
    have h₁₀ := h₉.tail (true, Act.call 0 locked) trivial rfl
    have h₁₁ := h₁₀.tail (true, Act.readLock) (hlocked rfl rfl) rfl
    have h₁₂ := h₁₁.tail (false, Act.call 0 locked) trivial rfl
    have h₁₃ := h₁₂.tail (false, Act.readLock) (hlocked rfl rfl) rfl
    have h₁₄ := h₁₃.tail (false, Act.acquire) trivial rfl
    exact ⟨_, _, h₁₄, rfl, _, List.mem_cons_self, rfl, rfl, _, rfl⟩
  obtain ⟨s, es, hrun, hlock, hbody⟩ := hrun
  exact ⟨s, es, hrun, hlock, hbody, fun u hu => State.locking_exclusion hrun hu hbody⟩

/-- The object `0` gets the lock of the object `1` while the thread `false` waits for the
lock that it read before. -/
theorem locking_overlaps :
    (∃ (s : State Bool ℕ ℕ) (es : List Empty), Run (silent State.step) (.created id) es s ∧
      s.InBody false 0 ∧ s.InBody true 0) ∧
    ¬ ∀ (lock : ℕ → ℕ) (s : State Bool ℕ ℕ) (es : List Empty),
      Run (silent State.step) (.created lock) es s →
        ∀ t u o, s.InBody t o → s.InBody u o → t = u := by
  have hoverlap : ∃ (s : State Bool ℕ ℕ) (es : List Empty),
      Run (silent State.step) (.created id) es s ∧ s.InBody false 0 ∧ s.InBody true 0 := by
    have hrun := run_of_exec (silent State.step) (.created id : State Bool ℕ ℕ)
      [(false, .call 0 locked), (false, .readLock),
        (true, .call 0 (.shareRecursiveLockWithObject (some 1))), (true, .share),
        (true, .readLock), (true, .acquire), (true, .share), (true, .share), (true, .ret),
        (true, .ret), (false, .acquire),
        (true, .call 0 locked), (true, .readLock), (true, .acquire)] rfl
    exact ⟨_, _, hrun, ⟨_, List.mem_cons_self, rfl, rfl, _, rfl⟩,
      ⟨_, List.mem_cons_self, rfl, rfl, _, rfl⟩⟩
  refine ⟨hoverlap, fun hclaim => ?_⟩
  obtain ⟨s, es, hrun, hfalse, htrue⟩ := hoverlap
  cases hclaim id s es hrun false true 0 hfalse htrue

end MulleObjC.Autolock
