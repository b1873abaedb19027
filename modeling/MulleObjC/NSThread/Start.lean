import MulleObjC.Access.Balance
import MulleObjC.Access.Graph

/-!
# A start that fails

`-mulleStart` announces that the process becomes multi-threaded, retains the thread object and
the universe, and relinquishes access to the argument, before it creates a thread. If no thread
can be created, it raises. What was retained for `bouncyBounce` is released first, but the flag
and the argument are left as they are.
-/

namespace MulleObjC.NSThread.Start

open Access

universe u

variable {Thread : Type*} {Obj Ivar : Type u}

/-- The instance variables of a thread object that are not changed by a start. -/
structure ThreadObject (Obj : Type*) where
  self : Obj
  isObjectFunctionArgument : Bool
  /-- `_functionArgument`, if it is an object. -/
  functionArgument : Option Obj
  invocation : Option Obj

/-- The object whose access is relinquished. -/
def ThreadObject.argument (o : ThreadObject Obj) : Option Obj :=
  if o.isObjectFunctionArgument then o.functionArgument else o.invocation

/-- What a start changes. -/
structure Process (Thread Obj : Type*) where
  /-- The objects, the thread object among them. -/
  world : World Thread Obj
  isDetached : Bool
  osThreadId : Option Thread
  /-- `ClassStatic._isMultiThreaded` -/
  isMultiThreaded : Bool
  /-- The threads of the universe, apart from the main thread. -/
  nThreads : ℕ
  universeRetainCount : ℕ

/-- Why an exception is raised. -/
inductive Reason
  /-- "thread already running" -/
  | threadAlreadyRunning
  /-- The access to the argument can not be relinquished. -/
  | argument
  /-- "thread creation" -/
  | threadCreation
  deriving DecidableEq, Repr

/-- The end of a call. -/
inductive Ended (Thread Obj : Type*)
  | returned (p : Process Thread Obj)
  | raised (reason : Reason) (p : Process Thread Obj)

variable [DecidableEq Thread] [DecidableEq Obj] [DecidableEq Ivar]

/-- `-mulleRelinquishAccessWithTAOStrategy:`. It is not booked, other than in
`World.step`. -/
def relinquish (classes : Classes Obj) (t : Thread) (w : World Thread Obj) (o : Obj) :
    Option (World Thread Obj) :=
  if RunsCode (w.pools t) = true ∧ 0 < w.retainCount o ∧
      HasAccess (classes.strategy o) (w.threadId o) t then
    let w' := { w with retainCount := w.retain classes o }
    match removal (classes.strategy o) (w.threadId o) with
    | none => some w'
    | some search =>
      let (es, s) := match search with
        | none => ([], w.pools t)
        | some owners => (w.pools t).releaseObjects [o] owners
      some
        { w' with
          pools := Function.update w.pools t s
          retainCount := World.release classes w'.retainCount (World.releases es)
          threadId := Function.update w.threadId o .hasNoThread }
  else none

/-- Access to some objects is relinquished, one after the other. -/
def relinquishAll (classes : Classes Obj) (t : Thread) :
    List Obj → World Thread Obj → Option (World Thread Obj)
  | [], w => some w
  | o :: os, w => (relinquish classes t w o).bind (relinquishAll classes t os)

namespace Process

variable (g : Access.Graph Obj Ivar) (fuel : ℕ) (o : ThreadObject Obj) (t : Thread)

/-- `-mulleRelinquishAccess` of the argument. -/
def relinquishArgument (p : Process Thread Obj) : Option (Ended Thread Obj) :=
  match o.argument with
  | none => some (.returned p)
  | some root =>
    match g.relinquishAccess fuel root with
    | .error .tooDeep => none
    | .error (.exception performed) =>
      (relinquishAll g.classes t performed p.world).map
        fun w => .raised .argument { p with world := w }
    | .ok progress =>
      (relinquishAll g.classes t progress.performed p.world).map
        fun w => .returned { p with world := w }

/-- `__isGoingMultiThreaded` -/
def isGoingMultiThreaded (p : Process Thread Obj) : Process Thread Obj :=
  { p with isMultiThreaded := true }

/-- `[self retain]` and `_mulle_objc_universe_retain( universe)` -/
def retain (p : Process Thread Obj) : Process Thread Obj :=
  { p with
    world := { p.world with retainCount := p.world.retain g.classes o.self }
    universeRetainCount := p.universeRetainCount + 1 }

/-- What is undone when no thread was created. -/
def undo (p : Process Thread Obj) : Process Thread Obj :=
  { p with
    world := { p.world with
      retainCount := World.release g.classes p.world.retainCount
        fun q => if q = o.self then 1 else 0 }
    isDetached := false
    universeRetainCount := p.universeRetainCount - 1 }

/-- `-mulleStart` in the thread `t`. The thread that `mulle_thread_create` creates, if it does,
is passed along. -/
def mulleStart (created : Option Thread) (p : Process Thread Obj) : Option (Ended Thread Obj) :=
  if p.osThreadId.isSome then some (.raised .threadAlreadyRunning p)
  else
    let p := if p.nThreads = 0 then p.isGoingMultiThreaded else p
    match (p.retain g o).relinquishArgument g fuel o t with
    | none => none
    | some (.raised reason p) => some (.raised reason p)
    | some (.returned p) =>
      match created with
      | none => some (.raised .threadCreation (p.undo g o))
      | some u => some (.returned { p with osThreadId := some u })

/-- `-start` in the thread `t`, which also detaches the thread that was created. -/
def start (created : Option Thread) (p : Process Thread Obj) : Option (Ended Thread Obj) :=
  mulleStart g fuel o t created { p with isDetached := true }

end Process

/-- How a thread is started. -/
inductive Selector
  | start
  | mulleStart
  deriving DecidableEq, Repr

/-- Start a thread. -/
def Selector.perform (selector : Selector) (g : Access.Graph Obj Ivar) (fuel : ℕ)
    (o : ThreadObject Obj) (t : Thread) (created : Option Thread) (p : Process Thread Obj) :
    Option (Ended Thread Obj) :=
  match selector with
  | start => p.start g fuel o t created
  | mulleStart => p.mulleStart g fuel o t created

/-- There is nothing to undo but what is undone: the thread object was not detached, the process
was announced to be multi-threaded, and access is relinquished to constants without affinity
only. -/
structure NothingLeft (g : Access.Graph Obj Ivar) (fuel : ℕ) (o : ThreadObject Obj)
    (p : Process Thread Obj) : Prop where
  isDetached : p.isDetached = false
  isMultiThreaded : p.nThreads = 0 → p.isMultiThreaded = true
  argument : ∀ root, o.argument = some root → ∀ progress,
    g.relinquishAccess fuel root = .ok progress → ∀ q ∈ progress.performed,
      g.isConstant q = true ∧ removal (g.classes.strategy q) (p.world.threadId q) = none

section Relinquish

omit [DecidableEq Ivar]

variable {classes : Classes Obj} {t : Thread} {w w' : World Thread Obj} {o : Obj} {os : List Obj}

/-- A relinquish that is booked does the same. -/
theorem relinquish_of_step {es : List (Pool.Event Obj)}
    (h : w.step classes (t, .relinquish o) = some (es, w')) :
    relinquish classes t w o = some { w' with relinquished := w.relinquished } := by
  rw [World.step] at h
  split at h
  · rename_i hguard
    obtain ⟨hcode, hretain, -, haccess⟩ := hguard
    rw [relinquish, if_pos ⟨hcode, hretain, haccess⟩]
    dsimp only at h ⊢
    cases hremoval : removal (classes.strategy o) (w.threadId o) with
    | none =>
      simp only [hremoval] at h
      obtain ⟨-, rfl⟩ := Prod.mk.inj (Option.some.inj h)
      rfl
    | some search =>
      simp only [hremoval] at h
      obtain ⟨-, rfl⟩ := Prod.mk.inj (Option.some.inj h)
      cases search <;> rfl
  · cases h

/-- An object keeps its thread id, or it belonged to the thread and has no thread now. -/
theorem relinquish_cases (h : relinquish classes t w o = some w') :
    (removal (classes.strategy o) (w.threadId o) = none ∧
      w' = { w with retainCount := w.retain classes o }) ∨
    (w.threadId o = .thread t ∧ w'.threadId = Function.update w.threadId o .hasNoThread) := by
  rw [relinquish] at h
  split at h
  · rename_i hguard
    obtain ⟨-, -, haccess⟩ := hguard
    dsimp only at h
    split at h
    · rename_i hremoval
      exact .inl ⟨hremoval, (Option.some.inj h).symm⟩
    · rename_i search hremoval
      obtain rfl := Option.some.inj h
      refine .inr ⟨?_, rfl⟩
      rcases haccess with hstrategy | hid | hid
      · rcases hstrategy with hstrategy | hstrategy <;> simp [hstrategy, removal] at hremoval
      · rw [hid, removal_of_isThreadsafe] at hremoval
        cases hremoval
      · exact hid
  · cases h

theorem relinquish_threadId (h : relinquish classes t w o = some w') (q : Obj) :
    w'.threadId q = w.threadId q ∨ w'.threadId q = .hasNoThread := by
  rcases relinquish_cases h with ⟨-, rfl⟩ | ⟨-, hids⟩
  · exact .inl rfl
  · by_cases hq : q = o
    · subst hq
      exact .inr (by rw [hids, Function.update_self])
    · exact .inl (by rw [hids, Function.update_of_ne hq])

theorem relinquishAll_threadId (h : relinquishAll classes t os w = some w') (q : Obj) :
    w'.threadId q = w.threadId q ∨ w'.threadId q = .hasNoThread := by
  induction os generalizing w with
  | nil =>
    obtain rfl := Option.some.inj h
    exact .inl rfl
  | cons o os ih =>
    obtain ⟨w₁, hfirst, hrest⟩ := Option.bind_eq_some_iff.mp h
    rcases ih hrest with hq | hq
    · rw [hq]
      exact relinquish_threadId hfirst q
    · exact .inr hq

/-- If no object has lost its thread, all objects were retained, and nothing else was done. -/
theorem relinquishAll_of_threadId (h : relinquishAll classes t os w = some w')
    (hids : w'.threadId = w.threadId) :
    (∀ o ∈ os, removal (classes.strategy o) (w.threadId o) = none) ∧
      ∀ o, classes.isConstant o = false → w'.retainCount o = w.retainCount o + os.count o := by
  induction os generalizing w with
  | nil =>
    obtain rfl := Option.some.inj h
    exact ⟨fun _ ho => absurd ho List.not_mem_nil, fun _ _ => by simp⟩
  | cons o os ih =>
    obtain ⟨w₁, hfirst, hrest⟩ := Option.bind_eq_some_iff.mp h
    rcases relinquish_cases hfirst with ⟨hremoval, rfl⟩ | ⟨hthread, hlost⟩
    · obtain ⟨hremovals, hcounts⟩ := ih hrest hids
      refine ⟨List.forall_mem_cons.mpr ⟨hremoval, hremovals⟩, fun q hq => ?_⟩
      rw [hcounts q hq]
      change w.retain classes o q + os.count q = _
      rw [retain_of_counted w hq, List.count_cons]
      by_cases hqo : q = o
      · simp [hqo]
        omega
      · simp [hqo, Ne.symm hqo]
    · -- The thread id is lost for good.
      rcases relinquishAll_threadId hrest o with hid | hid
      · rw [hids, hlost, Function.update_self, hthread] at hid
        cases hid
      · rw [hids, hthread] at hid
        cases hid

/-- Constants that have no affinity stay as they are. -/
theorem relinquishAll_of_constant (h : relinquishAll classes t os w = some w')
    (hos : ∀ o ∈ os, classes.isConstant o = true ∧
      removal (classes.strategy o) (w.threadId o) = none) : w' = w := by
  induction os generalizing w with
  | nil => exact (Option.some.inj h).symm
  | cons o os ih =>
    obtain ⟨w₁, hfirst, hrest⟩ := Option.bind_eq_some_iff.mp h
    obtain ⟨⟨hconstant, hremoval⟩, hos⟩ := List.forall_mem_cons.mp hos
    have hsame : w₁ = w := by
      rcases relinquish_cases hfirst with ⟨-, rfl⟩ | ⟨hthread, hlost⟩
      · rw [World.retain, if_pos hconstant]
      · rw [relinquish] at hfirst
        split at hfirst
        · rw [hremoval] at hfirst
          obtain rfl := Option.some.inj hfirst
          rw [World.retain, if_pos hconstant]
        · cases hfirst
    subst hsame
    exact ih hrest hos

end Relinquish

section Failure

variable {g : Access.Graph Obj Ivar} {fuel : ℕ} {o : ThreadObject Obj} {t : Thread}
  {p p' : Process Thread Obj}

/-- An argument that can not be relinquished is another failure. -/
theorem relinquishArgument_ne_raised (p : Process Thread Obj) :
    p.relinquishArgument g fuel o t ≠ some (.raised .threadCreation p') := by
  intro h
  unfold Process.relinquishArgument at h
  split at h
  · cases h
  · split at h
    · cases h
    · obtain ⟨w', -, hw'⟩ := Option.map_eq_some_iff.mp h
      cases hw'
    · obtain ⟨w', -, hw'⟩ := Option.map_eq_some_iff.mp h
      cases hw'

/-- The objects of which access was relinquished. -/
theorem relinquishArgument_cases (h : p.relinquishArgument g fuel o t = some (.returned p')) :
    ∃ os w', relinquishAll g.classes t os p.world = some w' ∧ p' = { p with world := w' } ∧
      ∀ P : Obj → Prop, (∀ q ∈ os, P q) ↔ ∀ root, o.argument = some root → ∀ progress,
        g.relinquishAccess fuel root = .ok progress → ∀ q ∈ progress.performed, P q := by
  unfold Process.relinquishArgument at h
  cases hargument : o.argument with
  | none =>
    rw [hargument] at h
    obtain rfl := Ended.returned.inj (Option.some.inj h)
    exact ⟨[], p.world, rfl, rfl, fun P => by simp⟩
  | some root =>
    rw [hargument] at h
    simp only at h
    split at h
    · cases h
    · obtain ⟨w', -, hw'⟩ := Option.map_eq_some_iff.mp h
      cases hw'
    · rename_i progress hprogress
      obtain ⟨w', hall, hw'⟩ := Option.map_eq_some_iff.mp h
      obtain rfl := Ended.returned.inj hw'
      refine ⟨progress.performed, w', hall, rfl, fun P => ⟨?_, ?_⟩⟩
      · rintro hos root' hroot progress' hprogress'
        obtain rfl := Option.some.inj hroot
        obtain rfl := Except.ok.inj (hprogress.symm.trans hprogress')
        exact hos
      · intro hos
        exact hos root rfl progress hprogress

/-- What is left behind by a start that fails. -/
theorem mulleStart_cases (h : p.mulleStart g fuel o t none = some (.raised .threadCreation p')) :
    ∃ os w', relinquishAll g.classes t os
        { p.world with retainCount := p.world.retain g.classes o.self } = some w' ∧
      p' =
        { p with
          world := { w' with
            retainCount := World.release g.classes w'.retainCount
              fun q => if q = o.self then 1 else 0 }
          isDetached := false
          isMultiThreaded := if p.nThreads = 0 then true else p.isMultiThreaded } ∧
      ∀ P : Obj → Prop, (∀ q ∈ os, P q) ↔ ∀ root, o.argument = some root → ∀ progress,
        g.relinquishAccess fuel root = .ok progress → ∀ q ∈ progress.performed, P q := by
  unfold Process.mulleStart at h
  split at h
  · cases h
  · simp only at h
    split at h
    · cases h
    · rename_i reason q hq
      obtain ⟨rfl, -⟩ := Ended.raised.inj (Option.some.inj h)
      exact absurd hq (relinquishArgument_ne_raised _)
    · rename_i q hq
      obtain ⟨os, w', hall, rfl, hos⟩ := relinquishArgument_cases hq
      obtain ⟨-, rfl⟩ := Ended.raised.inj (Option.some.inj h)
      refine ⟨os, w', ?_, ?_, hos⟩
      · split at hall <;> exact hall
      · split <;> simp [Process.undo, Process.retain, Process.isGoingMultiThreaded]

omit [DecidableEq Ivar] in
/-- The world behind a failed start is the old one if all objects stay as they are. -/
theorem world_eq_iff {w w' : World Thread Obj} {self : Obj} {os : List Obj}
    (h : relinquishAll g.classes t os { w with retainCount := w.retain g.classes self } =
      some w') :
    { w' with
      retainCount := World.release g.classes w'.retainCount fun q => if q = self then 1 else 0 } =
        w ↔
      ∀ q ∈ os, g.isConstant q = true ∧
        removal (g.classes.strategy q) (w.threadId q) = none := by
  constructor
  · intro hw q hq
    have hids := congrArg World.threadId hw
    have hcounts := congrArg World.retainCount hw
    obtain ⟨hremovals, hretained⟩ := relinquishAll_of_threadId h hids
    refine ⟨?_, hremovals q hq⟩
    by_contra hcounted
    have hcounted : g.classes.isConstant q = false := Bool.not_eq_true _ ▸ hcounted
    have hcount := congrFun hcounts q
    have hpos : 0 < os.count q := List.count_pos_iff.mpr hq
    simp only [release_of_counted hcounted, hretained q hcounted, retain_of_counted w hcounted]
      at hcount
    omega
  · intro hos
    obtain rfl := relinquishAll_of_constant h hos
    have hcounts : World.release g.classes (w.retain g.classes self)
        (fun q => if q = self then 1 else 0) = w.retainCount := by
      funext q
      cases hq : g.classes.isConstant q with
      | true => rw [World.release, if_pos hq, retain_of_constant hq]
      | false => rw [release_of_counted hq, retain_of_counted w hq, Nat.add_sub_cancel]
    simp only [hcounts]

/-- A start that fails leaves everything as it was, if there is nothing left to undo. -/
theorem mulleStart_eq_iff (d : Bool)
    (h : ({ p with isDetached := d } : Process Thread Obj).mulleStart g fuel o t none =
      some (.raised .threadCreation p')) : p' = p ↔ NothingLeft g fuel o p := by
  obtain ⟨os, w', hall, rfl, hos⟩ := mulleStart_cases h
  have hworld := world_eq_iff hall
  constructor
  · intro hp
    have hflag : (if p.nThreads = 0 then true else p.isMultiThreaded) = p.isMultiThreaded :=
      congrArg Process.isMultiThreaded hp
    refine ⟨(congrArg Process.isDetached hp).symm, fun hthreads => ?_, ?_⟩
    · rw [← hflag, if_pos hthreads]
    · exact (hos _).mp (hworld.mp (congrArg Process.world hp))
  · rintro ⟨hdetached, hflag, hargument⟩
    have hw := hworld.mpr ((hos _).mpr hargument)
    have hflag : (if p.nThreads = 0 then true else p.isMultiThreaded) = p.isMultiThreaded := by
      split
      · rename_i hthreads
        exact (hflag hthreads).symm
      · rfl
    simp only [hw, hflag, ← hdetached]

/-- For both ways to start a thread. -/
theorem perform_eq_iff (selector : Selector)
    (h : selector.perform g fuel o t none p = some (.raised .threadCreation p')) :
    p' = p ↔ NothingLeft g fuel o p := by
  cases selector with
  | start => exact mulleStart_eq_iff true h
  | mulleStart => exact mulleStart_eq_iff p.isDetached h

end Failure

section Examples

/-- A thread object and an invocation without slots. -/
def oneInvocation : Access.Graph ℕ Unit where
  kind o :=
    if o = 0 then
      .object ⟨.callerRemovesFromCurrentPool, [], [], fun _ => false, fun _ => none⟩
    else .invocation ⟨.callerRemovesFromCurrentPool, [], fun _ => none⟩
  isConstant _ := false

/-- A thread object for the invocation. -/
def threadObject : ThreadObject ℕ := ⟨0, false, none, some 1⟩

/-- Both objects belong to the main thread, which has started `nThreads` threads. -/
def oneProcess (nThreads : ℕ) : Process Bool ℕ where
  world :=
    ⟨fun _ => .init false, fun _ => 1, fun _ => .thread true, fun _ => 1, fun _ => 0⟩
  isDetached := false
  osThreadId := none
  isMultiThreaded := nThreads ≠ 0
  nThreads := nThreads
  universeRetainCount := nThreads + 1

/-- A thread object, and a constant that any thread may use. -/
def oneConstant : Access.Graph ℕ Unit where
  kind o :=
    if o = 0 then
      .object ⟨.callerRemovesFromCurrentPool, [], [], fun _ => false, fun _ => none⟩
    else .object ⟨.knownThreadSafe, [], [], fun _ => false, fun _ => none⟩
  isConstant o := o = 1

/-- A thread object for a function that gets the constant. -/
def functionObject : ThreadObject ℕ := ⟨0, true, some 1, none⟩

/-- The argument of the function is a constant, and another thread runs already. -/
theorem function_start_fails : ∃ p', (oneProcess 1).start oneConstant 1 functionObject
    true none = some (.raised .threadCreation p') ∧ p' = oneProcess 1 := by
  have h : Selector.start.perform oneConstant 1 functionObject true none (oneProcess 1) =
      some (.raised .threadCreation _) := rfl
  refine ⟨_, h, (perform_eq_iff .start h).mpr ⟨rfl, by decide, ?_⟩⟩
  intro root hroot progress hprogress
  obtain rfl := Option.some.inj hroot
  obtain rfl := Except.ok.inj hprogress
  decide

/-- The first thread is to perform an invocation. The invocation stays retained and without a
thread, and the process multi-threaded. -/
theorem invocation_start_fails : ∃ p', (oneProcess 0).start oneInvocation 1
    threadObject true none = some (.raised .threadCreation p') ∧
    p'.world.retainCount 1 = 2 ∧ p'.world.threadId 1 = .hasNoThread ∧
    p'.isMultiThreaded = true ∧ p' ≠ oneProcess 0 := by
  refine ⟨_, rfl, rfl, rfl, rfl, fun h => ?_⟩
  have hflag := congrArg Process.isMultiThreaded h
  exact absurd hflag (by decide)

end Examples

end MulleObjC.NSThread.Start
