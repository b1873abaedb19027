import MulleObjC.Access.Balance
import MulleObjC.Library.RecursiveLock

/-!
# Calls through a MulleProxy

A message to a proxy locks the recursive lock of the proxy, gains access to the target,
invokes the method of the target, relinquishes access and unlocks. Each of these is a step
of the thread. While the method runs the thread may do anything, a further message to the
proxy included, and the pool functions of all threads go on.
-/

namespace MulleObjC.Proxy

open Access

/-- `initWithTarget`: `if( self->__taoStrategy < MulleObjCTAOReceiverPerformsFinalize)` the
strategy of the target is raised. -/
def taoStrategy : TAOStrategy → TAOStrategy
  | .callerRemovesFromCurrentPool | .callerRemovesFromAllPools
  | .callerRemovesFromCurrentPoolShallow | .callerRemovesFromAllPoolsShallow =>
    .receiverPerformsFinalize
  | strategy => strategy

theorem isKnownThreadSafe_taoStrategy (strategy : TAOStrategy) :
    (taoStrategy strategy).IsKnownThreadSafe ↔ strategy.IsKnownThreadSafe := by
  cases strategy <;> decide

variable {Thread Obj : Type*} [DecidableEq Obj]

/-- The classes as seen through a proxy of the target. -/
def proxied (classes : Classes Obj) (target : Obj) : Classes Obj where
  isConstant := classes.isConstant
  strategy := Function.update classes.strategy target (taoStrategy (classes.strategy target))

section Access

variable [DecidableEq Thread] (classes : Classes Obj) (w : World Thread Obj) (t : Thread) (o : Obj)

/-- `-mulleGainAccessWithTAOStrategy:` as compiled for release, whoever had access before. -/
def gainAccess : Option (List (Pool.Event Obj) × World Thread Obj) :=
  match (w.pools t).step classes.isConstant (.autorelease o) with
  | none => none
  | some (es, s) =>
    some (es,
      { w with
        pools := Function.update w.pools t s
        threadId := Function.update w.threadId o (gainedId (classes.strategy o) (w.threadId o) t)
        relinquished := Function.update w.relinquished o (w.relinquished o - 1) })

/-- `-mulleRelinquishAccessWithTAOStrategy:` as compiled for release, whoever had access
before. -/
def relinquishAccess : List (Pool.Event Obj) × World Thread Obj :=
  let w' := { w with
    retainCount := w.retain classes o
    relinquished := Function.update w.relinquished o (w.relinquished o + 1) }
  match removal (classes.strategy o) (w.threadId o) with
  | none => ([], w')
  | some search =>
    let (es, s) := match search with
      | none => ([], w.pools t)
      | some owners => (w.pools t).releaseObjects [o] owners
    (es,
      { w' with
        pools := Function.update w.pools t s
        retainCount := World.release classes w'.retainCount (World.releases es)
        threadId := Function.update w.threadId o .hasNoThread })

variable {classes w t o}

/-- A gain of an object that was relinquished. -/
theorem step_gain (hrel : 0 < w.relinquished o) :
    w.step classes (t, .gain o) = gainAccess classes w t o := by
  rw [World.step, if_pos hrel]
  rfl

/-- A relinquish of an object by a thread that has access. -/
theorem step_relinquish (hcode : RunsCode (w.pools t)) (hlive : 0 < w.retainCount o)
    (hrel : w.relinquished o = 0) (hid : w.threadId o = .thread t) :
    w.step classes (t, .relinquish o) = some (relinquishAccess classes w t o) := by
  rw [World.step, if_pos ⟨hcode, hlive, hrel, .inr (.inr hid)⟩, relinquishAccess]
  cases removal (classes.strategy o) (w.threadId o) <;> rfl

end Access

/-- How far a call through the proxy is. -/
inductive Stage
  /-- `_MulleObjCRecursiveLockLock( lock)` -/
  | lock
  /-- `mulleGainAccessWithTAOStrategy:` -/
  | gain
  /-- `mulle_objc_object_call_inline_full_variable`, the method of the target. -/
  | body
  /-- `_MulleObjCRecursiveLockUnlock( lock)`, behind `mulleRelinquishAccessWithTAOStrategy:`. -/
  | unlock
  deriving DecidableEq, Repr

/-- The call has locked the lock. -/
def Stage.isLocked : Stage → Bool
  | .lock => false
  | .gain | .body | .unlock => true

/-- All threads, a proxy with its lock and the calls through the proxy. -/
structure State (Thread Obj : Type*) where
  world : World Thread Obj
  lock : RecursiveLock Thread
  /-- How often a thread locked the proxy by `-lock`. -/
  held : Thread → ℕ
  /-- The calls in flight of each thread, the innermost first. -/
  calls : Thread → List Stage

/-- What a thread can do. -/
inductive Act (Obj : Type*)
  /-- Something that is not about the proxy. -/
  | other (act : Access.Act Obj)
  /-- `-lock` of the proxy. -/
  | lockProxy
  /-- `-unlock` of the proxy. -/
  | unlockProxy
  /-- Send a message to the proxy, which runs `-forward:`. -/
  | send
  /-- The next step of `-forward:`. The method of the target returns where it is that. -/
  | forward

/-- Code other than the proxy leaves access to the target alone. -/
def leavesAccess (target : Obj) : Access.Act Obj → Bool
  | .relinquish o | .gain o => o ≠ target
  | _ => true

namespace State

/-- No calls through the proxy yet. -/
def created (world : World Thread Obj) : State Thread Obj where
  world := world
  lock := none
  held _ := 0
  calls _ := []

/-- The thread runs code of its own or of a method of the target. -/
def runsBody (s : State Thread Obj) (t : Thread) : Bool :=
  match s.calls t with
  | [] | .body :: _ => true
  | _ => false

/-- The thread runs the method of a call through the proxy. -/
def InBody (s : State Thread Obj) (t : Thread) : Prop := .body ∈ s.calls t

variable [DecidableEq Thread] (classes : Classes Obj) (target : Obj) (s : State Thread Obj)

/-- A call goes on. -/
def setCalls (t : Thread) (calls : List Stage) : State Thread Obj :=
  { s with calls := Function.update s.calls t calls }

/-- The next step of `-forward:`. -/
def forward (t : Thread) : Option (List (Pool.Event Obj) × State Thread Obj) :=
  match s.calls t with
  | [] => none
  | .lock :: below =>
    (s.lock.lock t).map fun lock => ([], { s.setCalls t (.gain :: below) with lock := lock })
  | .gain :: below =>
    (gainAccess (proxied classes target) s.world t target).map fun (es, world) =>
      (es, { s.setCalls t (.body :: below) with world := world })
  | .body :: below =>
    if RunsCode (s.world.pools t) then
      let (es, world) := relinquishAccess (proxied classes target) s.world t target
      some (es, { s.setCalls t (.unlock :: below) with world := world })
    else none
  | .unlock :: below =>
    (s.lock.unlock t).map fun lock => ([], { s.setCalls t below with lock := lock })

/-- A step of a thread. The proxy keeps the reference to the target that it took when it was
created. -/
def step : Thread × Act Obj → Option (List (Pool.Event Obj) × State Thread Obj)
  | (t, .other act) =>
    if s.runsBody t ∧ leavesAccess target act then
      match s.world.step classes (t, act) with
      | none => none
      | some (es, world) =>
        if 0 < world.owners target then some (es, { s with world := world }) else none
    else none
  | (t, .lockProxy) =>
    if s.runsBody t ∧ RunsCode (s.world.pools t) then
      (s.lock.lock t).map fun lock =>
        ([], { s with lock := lock, held := Function.update s.held t (s.held t + 1) })
    else none
  | (t, .unlockProxy) =>
    if s.runsBody t ∧ RunsCode (s.world.pools t) ∧ 0 < s.held t then
      (s.lock.unlock t).map fun lock =>
        ([], { s with lock := lock, held := Function.update s.held t (s.held t - 1) })
    else none
  | (t, .send) =>
    if s.runsBody t ∧ RunsCode (s.world.pools t) then
      some ([], s.setCalls t (.lock :: s.calls t))
    else none
  | (t, .forward) => s.forward classes target t

/-- No message is sent to the proxy from inside of a method of its target, and a thread that
gains access or autoreleases has a pool in place. -/
def Flat : Thread × Act Obj → Prop
  | (t, .other act) => s.world.PoolInPlace (t, act)
  | (t, .send) => s.calls t = []
  | (t, .forward) => ∀ below, s.calls t = .gain :: below → (s.world.pools t).config.pools ≠ []
  | _ => True

end State

end MulleObjC.Proxy
