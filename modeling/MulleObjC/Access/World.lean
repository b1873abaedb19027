import Mathlib.Data.Fintype.BigOperators
import MulleObjC.Pool.Removal

/-!
# Threads, objects and access

Every thread runs its own pools. An object that is not thread safe belongs to one
thread at a time. `-mulleRelinquishAccessWithTAOStrategy:` adds a reference and gives
the object up, `-mulleGainAccessWithTAOStrategy:` takes it and puts that reference
into the current pool of the gaining thread. The references that code holds and the
relinquishes that were not gained yet are kept as ghost state.
-/

namespace MulleObjC.Access

open Pool

/-- `MulleObjCTAOStrategy` -/
inductive TAOStrategy
  | callerRemovesFromCurrentPool
  | callerRemovesFromAllPools
  | callerRemovesFromCurrentPoolShallow
  | callerRemovesFromAllPoolsShallow
  | receiverPerformsFinalize
  | transferIvars
  | knownThreadSafeMethods
  | knownThreadSafe
  deriving DecidableEq, Repr

/-- The strategies that leave the thread id of an object alone. -/
def TAOStrategy.IsKnownThreadSafe (strategy : TAOStrategy) : Prop :=
  strategy = .knownThreadSafeMethods ∨ strategy = .knownThreadSafe

instance : DecidablePred TAOStrategy.IsKnownThreadSafe :=
  fun _ => inferInstanceAs (Decidable (_ ∨ _))

/-- The thread id of an object. -/
inductive ThreadId (Thread : Type*)
  /-- `mulle_objc_object_is_threadsafe` -/
  | isThreadsafe
  /-- `mulle_objc_object_has_no_thread` -/
  | hasNoThread
  | thread (t : Thread)
  deriving DecidableEq

/-- All threads and objects. -/
structure World (Thread Obj : Type*) where
  /-- The pools of each thread. -/
  pools : Thread → Pool.State Obj
  retainCount : Obj → ℕ
  threadId : Obj → ThreadId Thread
  /-- The references held by code and other objects. -/
  owners : Obj → ℕ
  /-- The relinquishes that were not gained yet. -/
  relinquished : Obj → ℕ

/-- The class of an object decides whether it is a constant and which strategy it has. -/
structure Classes (Obj : Type*) where
  isConstant : Obj → Bool
  strategy : Obj → TAOStrategy

/-- What a thread can do. -/
inductive Act (Obj : Type*)
  /-- Work on the pools of the thread. An autorelease hands a reference over to the pool. -/
  | pool (act : Pool.Act Obj)
  /-- Create an object. -/
  | alloc (o : Obj) (isThreadsafe : Bool)
  /-- Take a reference. -/
  | retain (o : Obj)
  /-- Give up a reference. -/
  | release (o : Obj)
  /-- `-mulleRelinquishAccessWithTAOStrategy:` -/
  | relinquish (o : Obj)
  /-- `-mulleGainAccessWithTAOStrategy:` -/
  | gain (o : Obj)

variable {Thread Obj : Type*} [DecidableEq Thread] [DecidableEq Obj]

/-- The references an act hands over to a pool. -/
def handedOver : Pool.Act Obj → List Obj
  | .autorelease p => [p]
  | .autoreleaseObjects objects count step => PoolConfiguration.addressed objects count step
  | _ => []

/-- The removals of `-mulleRelinquishAccessWithTAOStrategy:`. `none` if it returns
before it changes the affinity, else whether all pools are searched, if any is. -/
def removal (strategy : TAOStrategy) (id : ThreadId Thread) : Option (Option Bool) :=
  match strategy with
  | .knownThreadSafe | .knownThreadSafeMethods => none
  | _ =>
    if id = .isThreadsafe then none
    else
      match strategy with
      | .callerRemovesFromAllPoolsShallow | .callerRemovesFromAllPools => some (some true)
      | .callerRemovesFromCurrentPoolShallow | .callerRemovesFromCurrentPool => some (some false)
      | _ => some none

/-- The thread id after `-mulleGainAccessWithTAOStrategy:` in the thread `t`. -/
def gainedId (strategy : TAOStrategy) (id : ThreadId Thread) (t : Thread) : ThreadId Thread :=
  match strategy with
  | .knownThreadSafe | .knownThreadSafeMethods => id
  | _ => if id = .isThreadsafe then id else .thread t

/-- A thread that has access: the object is its own, or its class says that every thread
may call it. -/
def HasAccess (strategy : TAOStrategy) (id : ThreadId Thread) (t : Thread) : Prop :=
  strategy.IsKnownThreadSafe ∨ id = .isThreadsafe ∨ id = .thread t

instance (strategy : TAOStrategy) (id : ThreadId Thread) (t : Thread) :
    Decidable (HasAccess strategy id t) := inferInstanceAs (Decidable (_ ∨ _ ∨ _))

/-- The thread runs code, not a pool function. -/
def RunsCode (s : Pool.State Obj) : Bool :=
  match s.frames with
  | [] => true
  | .dealloc _ :: _ => true
  | _ => false

namespace World

variable (classes : Classes Obj)

/-- The retain counts after a retain. That of a constant is pinned. -/
def retain (w : World Thread Obj) (o : Obj) : Obj → ℕ :=
  if classes.isConstant o then w.retainCount
  else Function.update w.retainCount o (w.retainCount o + 1)

/-- The retain counts after some releases. -/
def release (retainCount : Obj → ℕ) (released : Obj → ℕ) : Obj → ℕ := fun o =>
  if classes.isConstant o then retainCount o else retainCount o - released o

/-- The number of times a list of events releases an object. -/
def releases (es : List (Event Obj)) (o : Obj) : ℕ :=
  es.countP (Event.isReleased (fun _ => true) o)

/-- A `-dealloc` runs exactly when the last reference is released. -/
def deallocsRight (w : World Thread Obj) (act : Pool.Act Obj) (es : List (Event Obj)) : Bool :=
  match act with
  | .run dealloc => es.all fun e =>
      match e with
      | .released _ o => dealloc == (!classes.isConstant o && decide (w.retainCount o = 1))
      | _ => true
  | _ => true

/-- One step of one thread. Each call of a method is one step, but pool functions run
finer, with the steps of other threads in between. -/
def step (w : World Thread Obj) : Thread × Act Obj → Option (List (Event Obj) × World Thread Obj)
  | (t, .pool act) =>
    match (w.pools t).step classes.isConstant act with
    | none => none
    | some (es, s) =>
      if (∀ o ∈ handedOver act, (handedOver act).count o ≤ w.owners o) ∧
          w.deallocsRight classes act es = true then
        some (es,
          { w with
            pools := Function.update w.pools t s
            retainCount := release classes w.retainCount (releases es)
            owners := fun o => w.owners o - (handedOver act).count o })
      else none
  | (t, .alloc o isThreadsafe) =>
    if w.retainCount o = 0 ∧ classes.isConstant o = false then
      some ([],
        { w with
          retainCount := Function.update w.retainCount o 1
          owners := Function.update w.owners o (w.owners o + 1)
          threadId :=
            Function.update w.threadId o (if isThreadsafe then .isThreadsafe else .thread t) })
    else none
  | (_, .retain o) =>
    if 0 < w.retainCount o then
      some ([],
        { w with
          retainCount := w.retain classes o
          owners := Function.update w.owners o (w.owners o + 1) })
    else none
  | (_, .release o) =>
    if 0 < w.owners o then
      some ([],
        { w with
          retainCount := release classes w.retainCount fun p => if p = o then 1 else 0
          owners := Function.update w.owners o (w.owners o - 1) })
    else none
  | (t, .relinquish o) =>
    if RunsCode (w.pools t) ∧ 0 < w.retainCount o ∧ w.relinquished o = 0 ∧
        HasAccess (classes.strategy o) (w.threadId o) t then
      let w' := { w with
        retainCount := w.retain classes o
        relinquished := Function.update w.relinquished o (w.relinquished o + 1) }
      match removal (classes.strategy o) (w.threadId o) with
      | none => some ([], w')
      | some search =>
        let (es, s) := match search with
          | none => ([], w.pools t)
          | some owners => (w.pools t).releaseObjects [o] owners
        some (es,
          { w' with
            pools := Function.update w.pools t s
            retainCount := release classes w'.retainCount (releases es)
            threadId := Function.update w.threadId o .hasNoThread })
    else none
  | (t, .gain o) =>
    if 0 < w.relinquished o then
      match (w.pools t).step classes.isConstant (.autorelease o) with
      | none => none
      | some (es, s) =>
        some (es,
          { w with
            pools := Function.update w.pools t s
            threadId :=
              Function.update w.threadId o (gainedId (classes.strategy o) (w.threadId o) t)
            relinquished := Function.update w.relinquished o (w.relinquished o - 1) })
    else none

/-- `MULLE_OBJC_NEVER_RELEASE`, the retain count of a constant. -/
def neverRelease : ℕ := 2 ^ 63 - 1

/-- No objects but the constants, all of whose references are held by code. -/
def init (hasMap : Bool) (threadId : Obj → ThreadId Thread) : World Thread Obj where
  pools := fun _ => .init hasMap
  retainCount := fun o => if classes.isConstant o then neverRelease else 0
  threadId := threadId
  owners := fun o => if classes.isConstant o then neverRelease else 0
  relinquished := fun _ => 0

/-- An autorelease and a gain need a pool in place. Without one the reference would leak,
which a debug build reports and aborts. -/
def PoolInPlace (w : World Thread Obj) : Thread × Act Obj → Prop
  | (t, .pool act) => handedOver act ≠ [] → (w.pools t).config.pools ≠ []
  | (t, .gain _) => (w.pools t).config.pools ≠ []
  | _ => True

end World

end MulleObjC.Access
