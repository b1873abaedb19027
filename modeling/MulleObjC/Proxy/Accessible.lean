import MulleObjC.Proxy.Calls

/-!
# A proxy keeps its target accessible

The lock admits the calls of one thread at a time. If no thread sends messages to the proxy
from inside of a method of the target, the target belongs to that thread while the method
runs and to no thread else, and a call leaves neither a reference nor an entry too many.
-/

namespace MulleObjC.Proxy

open Access Machine

variable {Thread Obj : Type*} [DecidableEq Thread] [DecidableEq Obj]

section World

variable {classes : Classes Obj} {target : Obj}

/-- The proxy does not change which objects are thread safe. -/
theorem isKnownThreadSafe_proxied (o : Obj) :
    ((proxied classes target).strategy o).IsKnownThreadSafe ↔
      (classes.strategy o).IsKnownThreadSafe := by
  by_cases ho : o = target
  · subst ho
    simp [proxied, isKnownThreadSafe_taoStrategy]
  · simp [proxied, ho]

omit [DecidableEq Thread] in
/-- What is sound for the classes is sound as seen through the proxy. -/
theorem sound_proxied [Fintype Thread] {w : World Thread Obj} :
    w.Sound (proxied classes target) ↔ w.Sound classes := by
  constructor
  · rintro ⟨hpools, hbalanced, hrel, haffine⟩
    refine ⟨hpools, hbalanced, hrel, fun o ho hpos hid hstrategy => ?_⟩
    exact haffine o ho hpos hid (fun h => hstrategy ((isKnownThreadSafe_proxied o).mp h))
  · rintro ⟨hpools, hbalanced, hrel, haffine⟩
    refine ⟨hpools, hbalanced, hrel, fun o ho hpos hid hstrategy => ?_⟩
    exact haffine o ho hpos hid (fun h => hstrategy ((isKnownThreadSafe_proxied o).mpr h))

/-- Other code does not change who has access to a live object. -/
theorem access_of_leavesAccess {w w' : World Thread Obj} {t : Thread} {act : Access.Act Obj}
    {es : List (Pool.Event Obj)} (hleaves : leavesAccess target act = true)
    (hlive : 0 < w.retainCount target) (h : w.step classes (t, act) = some (es, w')) :
    w'.threadId target = w.threadId target ∧ w'.relinquished target = w.relinquished target := by
  refine step_access ?_ ?_ ?_ h
  · rintro isThreadsafe rfl
    have hnone := (step_alloc_eq h).1.1
    omega
  · rintro rfl
    simp [leavesAccess] at hleaves
  · rintro rfl
    simp [leavesAccess] at hleaves

end World

namespace State

variable {classes : Classes Obj} {target : Obj} {s s' : State Thread Obj} {t : Thread}
  {es : List (Pool.Event Obj)}

/-- What a step of a thread does. -/
inductive Change (classes : Classes Obj) (target : Obj) (s : State Thread Obj) (t : Thread) :
    Act Obj → List (Pool.Event Obj) → State Thread Obj → Prop
  | other {act : Access.Act Obj} {es : List (Pool.Event Obj)} {world : World Thread Obj}
      (hbody : s.runsBody t = true) (hleaves : leavesAccess target act = true)
      (hworld : s.world.step classes (t, act) = some (es, world))
      (howned : 0 < world.owners target) :
      Change classes target s t (.other act) es { s with world := world }
  | lockProxy {lock : RecursiveLock Thread} (hbody : s.runsBody t = true)
      (hcode : RunsCode (s.world.pools t)) (hlock : s.lock.lock t = some lock) :
      Change classes target s t .lockProxy []
        { s with lock := lock, held := Function.update s.held t (s.held t + 1) }
  | unlockProxy {lock : RecursiveLock Thread} (hbody : s.runsBody t = true)
      (hcode : RunsCode (s.world.pools t)) (hheld : 0 < s.held t)
      (hunlock : s.lock.unlock t = some lock) :
      Change classes target s t .unlockProxy []
        { s with lock := lock, held := Function.update s.held t (s.held t - 1) }
  | send (hbody : s.runsBody t = true) (hcode : RunsCode (s.world.pools t)) :
      Change classes target s t .send [] (s.setCalls t (.lock :: s.calls t))
  | lock {below : List Stage} (hcalls : s.calls t = .lock :: below) {lock : RecursiveLock Thread}
      (hlock : s.lock.lock t = some lock) :
      Change classes target s t .forward [] { s.setCalls t (.gain :: below) with lock := lock }
  | gain {below : List Stage} (hcalls : s.calls t = .gain :: below)
      {es : List (Pool.Event Obj)} {world : World Thread Obj}
      (hgain : gainAccess (proxied classes target) s.world t target = some (es, world)) :
      Change classes target s t .forward es
        { s.setCalls t (.body :: below) with world := world }
  | relinquish {below : List Stage} (hcalls : s.calls t = .body :: below)
      (hcode : RunsCode (s.world.pools t)) {es : List (Pool.Event Obj)}
      {world : World Thread Obj}
      (hrelinquish : relinquishAccess (proxied classes target) s.world t target = (es, world)) :
      Change classes target s t .forward es
        { s.setCalls t (.unlock :: below) with world := world }
  | unlock {below : List Stage} (hcalls : s.calls t = .unlock :: below)
      {lock : RecursiveLock Thread} (hunlock : s.lock.unlock t = some lock) :
      Change classes target s t .forward [] { s.setCalls t below with lock := lock }

theorem forward_change (h : s.forward classes target t = some (es, s')) :
    Change classes target s t .forward es s' := by
  unfold State.forward at h
  split at h
  · cases h
  · next below hcalls =>
    obtain ⟨lock, hlock, heq⟩ := Option.map_eq_some_iff.mp h
    obtain ⟨rfl, rfl⟩ := Prod.mk.inj heq
    exact .lock hcalls hlock
  · next below hcalls =>
    obtain ⟨⟨fs, world⟩, hgain, heq⟩ := Option.map_eq_some_iff.mp h
    obtain ⟨rfl, rfl⟩ := Prod.mk.inj heq
    exact .gain hcalls hgain
  · next below hcalls =>
    split at h
    · next hcode =>
      obtain ⟨rfl, rfl⟩ := Prod.mk.inj (Option.some.inj h)
      exact .relinquish hcalls hcode rfl
    · cases h
  · next below hcalls =>
    obtain ⟨lock, hunlock, heq⟩ := Option.map_eq_some_iff.mp h
    obtain ⟨rfl, rfl⟩ := Prod.mk.inj heq
    exact .unlock hcalls hunlock

theorem step_change {act : Act Obj} (h : s.step classes target (t, act) = some (es, s')) :
    Change classes target s t act es s' := by
  cases act with
  | other act =>
    simp only [State.step] at h
    split at h
    case isFalse => cases h
    case isTrue hguard =>
      split at h
      · cases h
      · next fs world hworld =>
        split at h
        case isFalse => cases h
        case isTrue howned =>
          obtain ⟨rfl, rfl⟩ := Prod.mk.inj (Option.some.inj h)
          exact .other hguard.1 hguard.2 hworld howned
  | lockProxy =>
    simp only [State.step] at h
    split at h
    case isFalse => cases h
    case isTrue hguard =>
      obtain ⟨lock, hlock, heq⟩ := Option.map_eq_some_iff.mp h
      obtain ⟨rfl, rfl⟩ := Prod.mk.inj heq
      exact .lockProxy hguard.1 hguard.2 hlock
  | unlockProxy =>
    simp only [State.step] at h
    split at h
    case isFalse => cases h
    case isTrue hguard =>
      obtain ⟨lock, hunlock, heq⟩ := Option.map_eq_some_iff.mp h
      obtain ⟨rfl, rfl⟩ := Prod.mk.inj heq
      exact .unlockProxy hguard.1 hguard.2.1 hguard.2.2 hunlock
  | send =>
    simp only [State.step] at h
    split at h
    case isFalse => cases h
    case isTrue hguard =>
      obtain ⟨rfl, rfl⟩ := Prod.mk.inj (Option.some.inj h)
      exact .send hguard.1 hguard.2
  | forward => exact forward_change h

/-- The lock is as deep as its thread has locked it, by itself and in its calls. -/
def Deep (s : State Thread Obj) : Prop :=
  ∀ t, s.lock.depth t = s.held t + (s.calls t).countP Stage.isLocked

omit [DecidableEq Obj] in
/-- A thread with a call that has locked the lock has the lock. -/
theorem Deep.depth_pos (h : s.Deep) {stage : Stage} (hmem : stage ∈ s.calls t)
    (hstage : stage.isLocked = true) : 0 < s.lock.depth t := by
  have hcount := List.countP_pos_iff.mpr ⟨stage, hmem, hstage⟩
  rw [h t]
  omega

omit [DecidableEq Obj] in
/-- One thread is in the method of the target at a time. -/
theorem Deep.eq_of_inBody (h : s.Deep) {u : Thread} (ht : s.InBody t) (hu : s.InBody u) :
    t = u :=
  RecursiveLock.eq_of_depth_pos (h.depth_pos ht rfl) (h.depth_pos hu rfl)

omit [DecidableEq Obj] in
/-- A call of one thread goes on as the lock does. -/
theorem Deep.setCalls (h : s.Deep) {calls : List Stage} (lock : RecursiveLock Thread)
    (world : World Thread Obj)
    (hdepth : lock.depth t = s.held t + calls.countP Stage.isLocked)
    (hothers : ∀ u, u ≠ t → lock.depth u = s.lock.depth u) :
    State.Deep { s.setCalls t calls with world := world, lock := lock } := by
  intro u
  by_cases hu : u = t
  · subst hu
    simpa [State.setCalls] using hdepth
  · simpa [State.setCalls, hu, hothers u hu] using h u

/-- Every step keeps the lock as deep as its thread has locked it. -/
theorem Deep.step (h : s.Deep) {act : Act Obj}
    (hstep : s.step classes target (t, act) = some (es, s')) : s'.Deep := by
  have ht := h t
  cases step_change hstep with
  | other => exact h
  | lockProxy _ _ hlock =>
    intro u
    have hdepth := RecursiveLock.depth_lock hlock u
    have hu := h u
    by_cases hut : u = t
    · subst hut
      simp only [if_true, Function.update_self] at hdepth ⊢
      omega
    · simpa [hut, hu] using hdepth
  | unlockProxy _ _ hheld hunlock =>
    intro u
    have hdepth := RecursiveLock.depth_unlock hunlock u
    have hu := h u
    by_cases hut : u = t
    · subst hut
      simp only [if_true, Function.update_self] at hdepth ⊢
      omega
    · simpa [hut, hu] using hdepth
  | send =>
    refine h.setCalls s.lock s.world ?_ fun _ _ => rfl
    rw [List.countP_cons_of_neg (by simp [Stage.isLocked])]
    exact ht
  | lock hcalls hlock =>
    have hdepth := RecursiveLock.depth_lock hlock
    rw [hcalls, List.countP_cons_of_neg (by simp [Stage.isLocked])] at ht
    refine h.setCalls _ _ ?_ fun u hu => by simpa [hu] using hdepth u
    rw [hdepth t, ht, List.countP_cons_of_pos (by rfl), if_pos rfl]
    omega
  | gain hcalls | relinquish hcalls =>
    rw [hcalls] at ht
    exact h.setCalls s.lock _ ht fun _ _ => rfl
  | unlock hcalls hunlock =>
    have hdepth := RecursiveLock.depth_unlock hunlock
    have hself := hdepth t
    rw [hcalls, List.countP_cons_of_pos (by rfl)] at ht
    refine h.setCalls _ _ ?_ fun u hu => by simpa [hu] using hdepth u
    rw [if_pos rfl] at hself
    omega

/-- Nobody is in the method when the outermost call of a thread returns. -/
theorem Deep.not_inBody_of_returned (h : s.Deep)
    (hstep : s.step classes target (t, .forward) = some (es, s')) (hcalls : s'.calls t = [])
    (u : Thread) : ¬ s'.InBody u := by
  cases step_change hstep with
  | lock | gain | relinquish => simp [State.setCalls] at hcalls
  | unlock hunlock =>
    intro hu
    have hne : u ≠ t := by
      rintro rfl
      rw [State.InBody, hcalls] at hu
      cases hu
    have hbody : s.InBody u := by
      simpa [State.InBody, State.setCalls, hne] using hu
    have hlocked : Stage.unlock ∈ s.calls t := hunlock ▸ List.mem_cons_self
    exact hne (RecursiveLock.eq_of_depth_pos (h.depth_pos hbody rfl) (h.depth_pos hlocked rfl))

variable [Fintype Thread]

/-- The invariant of the runs without nested calls. -/
structure Kept (classes : Classes Obj) (target : Obj) (s : State Thread Obj) : Prop where
  sound : s.world.Sound classes
  deep : s.Deep
  /-- The reference of the proxy. -/
  owned : 0 < s.world.owners target
  single : ∀ t, (s.calls t).length ≤ 1
  inBody : ∀ t, s.InBody t → s.world.threadId target = .thread t
  limbo : (∀ t, ¬ s.InBody t) → s.world.threadId target = .hasNoThread

/-- The objects that the property is about: counted, and of one thread at a time. -/
def Confined (classes : Classes Obj) (target : Obj) : Prop :=
  classes.isConstant target = false ∧ ¬ (classes.strategy target).IsKnownThreadSafe

omit [DecidableEq Thread] [Fintype Thread] in
/-- The proxy gains and relinquishes with a strategy that changes the thread id. -/
theorem Confined.proxied (h : Confined classes target) :
    ¬ ((proxied classes target).strategy target).IsKnownThreadSafe :=
  fun hsafe => h.2 ((isKnownThreadSafe_proxied target).mp hsafe)

/-- A target is not thread safe at any time. -/
theorem Kept.ne_isThreadsafe (h : s.Kept classes target) :
    s.world.threadId target ≠ .isThreadsafe := by
  by_cases hbody : ∃ t, s.InBody t
  · obtain ⟨t, ht⟩ := hbody
    simp [h.inBody t ht]
  · simp [h.limbo (not_exists.mp hbody)]

/-- The proxy keeps its target alive. -/
theorem Kept.live (h : s.Kept classes target) (htarget : Confined classes target) :
    0 < s.world.retainCount target := by
  have hbalanced := h.sound.balanced target htarget.1
  have howned := h.owned
  rw [World.Balanced] at hbalanced
  omega

/-- A target without a thread is relinquished. -/
theorem Kept.relinquished_iff (h : s.Kept classes target) (htarget : Confined classes target) :
    s.world.threadId target = .hasNoThread ↔ 0 < s.world.relinquished target :=
  h.sound.affine target htarget.1 (h.live htarget) h.ne_isThreadsafe htarget.2

/-- The lock and the calls of a thread change, and nobody enters or leaves a method. -/
theorem Kept.congr (h : s.Kept classes target) (hdeep : s'.Deep) (hworld : s'.world = s.world)
    (hsingle : ∀ u, (s'.calls u).length ≤ 1) (hbody : ∀ u, s'.InBody u ↔ s.InBody u) :
    s'.Kept classes target := by
  refine ⟨hworld ▸ h.sound, hdeep, hworld ▸ h.owned, hsingle, fun u hu => ?_, fun hnone => ?_⟩
  · rw [hworld]
    exact h.inBody u ((hbody u).mp hu)
  · rw [hworld]
    exact h.limbo fun u hu => hnone u ((hbody u).mpr hu)

omit [DecidableEq Obj] [Fintype Thread] in
/-- Where the calls of one thread change. -/
theorem length_setCalls {calls : List Stage} (hsingle : ∀ u, (s.calls u).length ≤ 1)
    (hcalls : calls.length ≤ 1) (u : Thread) : ((s.setCalls t calls).calls u).length ≤ 1 := by
  by_cases hu : u = t
  · subst hu
    simpa [State.setCalls] using hcalls
  · simpa [State.setCalls, hu] using hsingle u

omit [DecidableEq Obj] [Fintype Thread] in
theorem inBody_setCalls {calls : List Stage} {u : Thread} :
    (s.setCalls t calls).InBody u ↔ if u = t then .body ∈ calls else s.InBody u := by
  by_cases hu : u = t
  · subst hu
    simp [State.setCalls, State.InBody]
  · simp [State.setCalls, State.InBody, hu]

/-- Something that is not about the proxy. -/
theorem Kept.other (h : s.Kept classes target) (htarget : Confined classes target)
    {act : Access.Act Obj} (hplace : s.world.PoolInPlace (t, act))
    (hstep : s.step classes target (t, .other act) = some (es, s')) : s'.Kept classes target := by
  have hdeep := h.deep.step hstep
  cases step_change hstep with
  | other _ hleaves hworld howned =>
    obtain ⟨hid, -⟩ := access_of_leavesAccess hleaves (h.live htarget) hworld
    refine ⟨sound_step h.sound hplace hworld, hdeep, howned, h.single, fun u hu => ?_,
      fun hnone => ?_⟩
    · exact hid.trans (h.inBody u hu)
    · exact hid.trans (h.limbo hnone)

/-- Gaining access before the method of the target. -/
theorem Kept.gain (h : s.Kept classes target) (htarget : Confined classes target)
    (hcalls : s.calls t = [.gain]) (hpools : (s.world.pools t).config.pools ≠ [])
    {world : World Thread Obj}
    (hgain : gainAccess (proxied classes target) s.world t target = some (es, world)) :
    State.Kept classes target { s.setCalls t [.body] with world := world } := by
  -- Only the thread that has the lock can be in the method, and it is not.
  have hnone : ∀ u, ¬ s.InBody u := by
    intro u hu
    have hgaining : Stage.gain ∈ s.calls t := hcalls ▸ List.mem_cons_self
    obtain rfl := RecursiveLock.eq_of_depth_pos (h.deep.depth_pos hgaining rfl)
      (h.deep.depth_pos hu rfl)
    simp [State.InBody, hcalls] at hu
  have hrel := (h.relinquished_iff htarget).mp (h.limbo hnone)
  have hsound := sound_gain (sound_proxied.mpr h.sound) hpools ((step_gain hrel).trans hgain)
  have hdeep : State.Deep { s.setCalls t [.body] with world := world } := by
    refine h.deep.setCalls s.lock world ?_ fun _ _ => rfl
    rw [h.deep t, hcalls]
    rfl
  unfold gainAccess at hgain
  split at hgain
  case h_1 => cases hgain
  case h_2 =>
    obtain ⟨-, rfl⟩ := Prod.mk.inj (Option.some.inj hgain)
    have hid := gainedId_eq h.ne_isThreadsafe htarget.proxied t
    refine ⟨sound_proxied.mp hsound, hdeep, h.owned,
      fun u => length_setCalls h.single (by simp) u, fun u hu => ?_, fun hnobody => ?_⟩
    · have hut : u = t := by
        by_contra hne
        have hbody := inBody_setCalls.mp hu
        rw [if_neg hne] at hbody
        exact hnone u hbody
      subst hut
      exact (Function.update_self ..).trans hid
    · exact absurd (inBody_setCalls.mpr (by simp)) (hnobody t)

/-- Relinquishing access behind the method of the target. -/
theorem Kept.relinquish (h : s.Kept classes target) (htarget : Confined classes target)
    (hcalls : s.calls t = [.body]) (hcode : RunsCode (s.world.pools t))
    {world : World Thread Obj}
    (hrelinquish : relinquishAccess (proxied classes target) s.world t target = (es, world)) :
    State.Kept classes target { s.setCalls t [.unlock] with world := world } := by
  have hbody : s.InBody t := by simp [State.InBody, hcalls]
  have hid := h.inBody t hbody
  have hrel : s.world.relinquished target = 0 := by
    have hiff := h.relinquished_iff htarget
    rw [hid] at hiff
    simpa using hiff
  have hstep : s.world.step (proxied classes target) (t, .relinquish target) = _ :=
    Proxy.step_relinquish hcode (h.live htarget) hrel hid
  rw [hrelinquish] at hstep
  have hsound := sound_proxied.mp (sound_relinquish (sound_proxied.mpr h.sound) hstep)
  obtain ⟨-, -, _, -, hworld, -, -, hlimbo⟩ := Access.step_relinquish hstep
  have hnothread := hlimbo h.ne_isThreadsafe htarget.proxied
  have howners : world.owners = s.world.owners := by rw [hworld]
  refine ⟨hsound, ?_, by simpa only [howners] using h.owned,
    fun u => length_setCalls h.single (by simp) u, fun u hu => ?_, fun _ => hnothread⟩
  · refine h.deep.setCalls s.lock world ?_ fun _ _ => rfl
    rw [h.deep t, hcalls]
    rfl
  · -- The thread that leaves the method was the only one in it.
    have hbody' := inBody_setCalls.mp hu
    by_cases hut : u = t
    · simp [hut] at hbody'
    · rw [if_neg hut] at hbody'
      exact absurd (h.deep.eq_of_inBody hbody' hbody) hut

/-- Waiting for the lock, and unlocking it. -/
theorem Kept.relock (h : s.Kept classes target) {stage : Stage} {calls : List Stage}
    (hcalls : s.calls t = [stage]) (hstage : stage ≠ .body) (hlength : calls.length ≤ 1)
    (hbody : Stage.body ∉ calls) {lock : RecursiveLock Thread}
    (hdeep : State.Deep { s.setCalls t calls with lock := lock }) :
    State.Kept classes target { s.setCalls t calls with lock := lock } := by
  refine h.congr hdeep rfl (fun u => length_setCalls h.single hlength u) fun u => ?_
  refine (inBody_setCalls (s := s)).trans ?_
  by_cases hut : u = t
  · subst hut
    simp [hbody, State.InBody, hcalls, Ne.symm hstage]
  · rw [if_neg hut]

/-- Every step of a run without nested calls. -/
theorem Kept.step (h : s.Kept classes target) (htarget : Confined classes target) {act : Act Obj}
    (hflat : s.Flat (t, act)) (hstep : s.step classes target (t, act) = some (es, s')) :
    s'.Kept classes target := by
  have hdeep := h.deep.step hstep
  -- a call of `-forward:` is the only one of its thread
  have hsingle {stage : Stage} {below : List Stage} (hcalls : s.calls t = stage :: below) :
      below = [] := by
    simpa [hcalls] using h.single t
  cases step_change hstep with
  | other => exact h.other htarget hflat hstep
  | lockProxy | unlockProxy => exact h.congr hdeep rfl h.single fun _ => Iff.rfl
  | send =>
    have hcalls : s.calls t = [] := hflat
    rw [hcalls] at hdeep ⊢
    refine h.congr hdeep rfl (fun u => length_setCalls h.single (by simp) u) fun u => ?_
    refine inBody_setCalls.trans ?_
    by_cases hut : u = t
    · subst hut
      simp [State.InBody, hcalls]
    · rw [if_neg hut]
  | lock hcalls | unlock hcalls =>
    obtain rfl := hsingle hcalls
    exact h.relock hcalls (by simp) (by simp) (by simp) hdeep
  | gain hcalls hgain =>
    obtain rfl := hsingle hcalls
    exact h.gain htarget hcalls (hflat [] hcalls) hgain
  | relinquish hcalls hcode hrelinquish =>
    obtain rfl := hsingle hcalls
    exact h.relinquish htarget hcalls hcode hrelinquish

/-- A new proxy, whose creator has relinquished access to the target. -/
theorem kept_created {world : World Thread Obj} (hsound : world.Sound classes)
    (howned : 0 < world.owners target) (hid : world.threadId target = .hasNoThread) :
    (created world).Kept classes target where
  sound := hsound
  deep t := rfl
  owned := howned
  single t := Nat.zero_le 1
  inBody t ht := by cases ht
  limbo _ := hid

end State

/-- With nested calls, too, one thread is in the method at a time, and a thread unlocks as
often as it locks. -/
theorem exclusive_of_run {classes : Classes Obj} {target : Obj} {world : World Thread Obj}
    {es : List (Pool.Event Obj)} {s : State Thread Obj}
    (hrun : Run (State.step classes target) (.created world) es s) :
    (∀ t u, s.InBody t → s.InBody u → t = u) ∧
    ∀ t, s.calls t = [] → s.lock.depth t = s.held t := by
  have hdeep : s.Deep :=
    hrun.invariant State.Deep (fun {_ a _ _} _ h hstep => h.step (t := a.1) hstep) fun _ => rfl
  refine ⟨fun t u ht hu => hdeep.eq_of_inBody ht hu, fun t hcalls => ?_⟩
  rw [hdeep t, hcalls]
  rfl

/-- For every proxy whose creator has relinquished access to the target, and in every run in
which no thread sends a message to the proxy from inside of a method of the target: while a
thread runs the method of a call the target is its own and no other thread runs one; the lock
is as deep as before whenever a thread has no call in flight; and when no thread runs a method,
as behind the return of a call, the target belongs to no thread, and there is the one reference
of the creator's relinquish besides those that code holds and those for the pool entries. -/
theorem target_kept [Fintype Thread] {classes : Classes Obj} {target : Obj}
    (htarget : State.Confined classes target) {hasMap : Bool} {threadId : Obj → ThreadId Thread}
    {world : World Thread Obj} {es₀ : List (Pool.Event Obj)}
    (hworld : RunWhile (World.step classes) World.PoolInPlace (.init classes hasMap threadId)
      es₀ world) (howned : 0 < world.owners target) (hid : world.threadId target = .hasNoThread)
    {es : List (Pool.Event Obj)} {s : State Thread Obj}
    (hrun : RunWhile (State.step classes target) State.Flat (.created world) es s) :
    (∀ t, s.InBody t → s.world.threadId target = .thread t ∧ ∀ u, s.InBody u → u = t) ∧
    (∀ t, s.calls t = [] → s.lock.depth t = s.held t) ∧
    ((∀ t, ¬ s.InBody t) → s.world.threadId target = .hasNoThread ∧
      s.world.retainCount target =
        s.world.owners target + (∑ t, (s.world.pools t).pending (fun _ => true) target) + 1) ∧
    (∀ t fs s', s.step classes target (t, .forward) = some (fs, s') → s'.calls t = [] →
      ∀ u, ¬ s'.InBody u) := by
  have hsound : world.Sound classes :=
    hworld.invariant (World.Sound classes) (fun hplace hw hstep => sound_step hw hplace hstep)
      (sound_init hasMap threadId)
  have hkept : s.Kept classes target :=
    hrun.invariant (State.Kept classes target)
      (fun {_ a _ _} hflat h hstep => h.step (t := a.1) htarget hflat hstep)
      (State.kept_created hsound howned hid)
  refine ⟨fun t ht => ⟨hkept.inBody t ht, fun u hu => hkept.deep.eq_of_inBody hu ht⟩,
    fun t hcalls => ?_, fun hnone => ?_, fun t fs s' hstep hcalls u hu => ?_⟩
  · rw [hkept.deep t, hcalls]
    rfl
  · have hlimbo := hkept.limbo hnone
    have hrel := (hkept.relinquished_iff htarget).mp hlimbo
    have hle := hkept.sound.relinquished_le target
    have hbalanced := hkept.sound.balanced target htarget.1
    refine ⟨hlimbo, ?_⟩
    rw [World.Balanced, World.pending] at hbalanced
    simp only [pending] at hbalanced
    omega
  · -- The thread that unlocks is the one that had the lock.
    exact hkept.deep.not_inBody_of_returned hstep hcalls u hu

/-- A thread creates an object and relinquishes access. Another thread calls a method of it
through the proxy. -/
theorem target_kept_inBody : ∃ s : State Bool ℕ, s.InBody false ∧
    ∀ t, s.InBody t → s.world.threadId 1 = .thread t ∧ ∀ u, s.InBody u → u = t := by
  have hrun : ∃ (world : World Bool ℕ) (es₀ es : List (Pool.Event ℕ)) (s : State Bool ℕ),
      RunWhile (World.step oneConstant) World.PoolInPlace
        (.init oneConstant false fun _ => .isThreadsafe) es₀ world ∧
      0 < world.owners 1 ∧ world.threadId 1 = .hasNoThread ∧
      RunWhile (State.step oneConstant 1) State.Flat (.created world) es s ∧ s.InBody false := by
    refine ⟨_, _, _, _, ((((RunWhile.refl _).tail (false, .pool .push) (fun h => absurd rfl h)
      rfl).tail (true, .alloc 1 false) trivial rfl).tail (true, .retain 1) trivial rfl).tail
      (true, .relinquish 1) trivial rfl, ?_, rfl,
      (((RunWhile.refl _).tail (false, Act.send) ?_ rfl).tail (false, Act.forward) ?_ rfl).tail
      (false, Act.forward) ?_ rfl, List.mem_cons_self⟩
    · decide
    · rfl
    · exact fun _ _ => List.cons_ne_nil _ _
    · exact fun _ _ => List.cons_ne_nil _ _
  obtain ⟨world, es₀, es, s, hworld, howned, hid, hrun, hbody⟩ := hrun
  exact ⟨s, hbody, (target_kept ⟨rfl, by decide⟩ hworld howned hid hrun).1⟩

/-- The method of a call sends a message to the proxy. Behind it the target has no thread, and
the method of the outer call still runs. -/
theorem nested_loses_target : ∃ (world : World Bool ℕ) (es₀ es : List (Pool.Event ℕ))
    (s : State Bool ℕ), RunWhile (World.step oneConstant) World.PoolInPlace
      (.init oneConstant false fun _ => .isThreadsafe) es₀ world ∧
    0 < world.owners 1 ∧ world.threadId 1 = .hasNoThread ∧
    Run (State.step oneConstant 1) (.created world) es s ∧
    s.InBody false ∧ s.world.threadId 1 = .hasNoThread := by
  refine ⟨_, _, _, _, ((((RunWhile.refl _).tail (false, .pool .push) (fun h => absurd rfl h)
    rfl).tail (true, .alloc 1 false) trivial rfl).tail (true, .retain 1) trivial rfl).tail
    (true, .relinquish 1) trivial rfl, ?_, rfl,
    run_of_exec _ _ [(false, Act.send), (false, Act.forward), (false, Act.forward),
      (false, Act.send), (false, Act.forward), (false, Act.forward), (false, Act.forward),
      (false, Act.forward)] rfl, List.mem_cons_self, rfl⟩
  decide

end MulleObjC.Proxy
