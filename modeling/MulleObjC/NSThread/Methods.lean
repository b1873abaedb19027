import Mathlib.Data.Nat.Notation

/-!
# Methods of a thread object

A thread object retains its argument, an invocation or the object for a function.
`-mulleStart` relinquishes access to it in one thread, `bouncyBounce` gains it in the new
one, and `-finalize`, `-mulleJoin` and `-dealloc` hand it on or give it up, depending on
what the flags of the thread object say. The methods are run statement by statement, in the
thread that calls them and in the new thread.
-/

namespace MulleObjC.NSThread

/-- What follows `-finalize`. -/
inductive Finalizer
  /-- `+exit` and the takedown of the thread. -/
  | exit
  /-- The `-dealloc` of the thread object. -/
  | dealloc
  deriving DecidableEq

/-- The statement that is next in a method of the thread object, as far as the argument,
the flags and the retain count are concerned. A new thread is named where it is created. -/
inductive Statement (Thread : Type*)
  /-- `-start`: `self->_isDetached = YES;` -/
  | setDetached (u : Thread)
  /-- `-mulleStart`: the check for a running thread and `[self retain];` -/
  | retain (u : Thread)
  /-- `-mulleStart`: `[… mulleRelinquishAccess];` -/
  | relinquish (u : Thread)
  /-- `-mulleStart`: `mulle_thread_create( bouncyBounce, self, &self->_osThread)` -/
  | createThread (u : Thread)
  /-- `bouncyBounce`: `mulle_objc_thread_new_poolconfiguration( universe);` -/
  | newPoolConfiguration
  /-- `bouncyBounce`: `[… mulleGainAccess];` -/
  | gain
  /-- `bouncyBounce`: `self->_threadDidGainAccess = YES;` -/
  | setThreadDidGainAccess
  /-- `[self main];` -/
  | main
  /-- `[thread mullePerformFinalize];`, which runs `-finalize` once. -/
  | performFinalize (next : Finalizer)
  /-- `-finalize`: `[self->_invocation autorelease];` -/
  | autoreleaseInvocation (next : Finalizer)
  /-- `-finalize`: `[(id) self->_functionArgument autorelease];` -/
  | autoreleaseFunctionArgument (next : Finalizer)
  /-- `-finalize`: `[… mulleRelinquishAccess];` -/
  | relinquishInFinalize (next : Finalizer)
  /-- `_MulleThreadTakedownPoolAndRelease`: `[threadObject release];` -/
  | releaseThreadObject
  /-- `-mulleJoin`: `mulle_thread_join( self->_osThread);` -/
  | join
  /-- `-mulleJoin`: `[… mulleGainAccess];` -/
  | gainInJoin
  /-- `-mulleJoin`: `[… autorelease];` -/
  | autoreleaseInJoin
  /-- `-dealloc`: `[… mulleGainAccess];` -/
  | gainInDealloc
  /-- `-dealloc`: `[self->_invocation release];` -/
  | releaseInvocation
  /-- `-dealloc`: `[(id) self->_functionArgument release];` -/
  | releaseFunctionArgument
  deriving DecidableEq

/-- A thread object, with what is known about its use. -/
structure ThreadObject (Thread : Type*) where
  /-- `_invocation` is not `nil`. -/
  hasInvocation : Bool
  /-- `_functionArgument` is not `nil`. -/
  hasFunctionArgument : Bool
  isObjectFunctionArgument : Bool
  isDetached : Bool
  threadDidGainAccess : Bool
  isFinalized : Bool
  retainCount : ℕ
  /-- The new thread was created, and nobody has joined it yet. -/
  isJoinable : Bool
  /-- The references to the thread object that other code holds. -/
  users : ℕ
  /-- The thread that has gained access to the argument last, if access was not
  relinquished since. -/
  accessor : Option Thread

/-- What is sent to the argument, or done about the pools. -/
inductive Call
  | relinquish
  | gain
  | autorelease
  | release
  | pushPool
  deriving DecidableEq

/-- A call, the statement behind it and the thread object behind it. -/
structure Outcome (Thread : Type*) where
  call : Option Call := none
  next : Option (Statement Thread)
  object : ThreadObject Thread

/-- The statement behind `-finalize`. -/
def Finalizer.next {Thread : Type*} : Finalizer → Statement Thread
  | exit => .releaseThreadObject
  | dealloc => .gainInDealloc

namespace ThreadObject

variable {Thread : Type*}

/-- `-mulleInitWithInvocation:`, `-initWithTarget:selector:object:` and
`-mulleInitWithObjectFunction:object:` in the thread `creator`. -/
def created (creator : Thread) (isObjectFunctionArgument : Bool) : ThreadObject Thread where
  hasInvocation := !isObjectFunctionArgument
  hasFunctionArgument := isObjectFunctionArgument
  isObjectFunctionArgument := isObjectFunctionArgument
  isDetached := false
  threadDidGainAccess := false
  isFinalized := false
  retainCount := 1
  isJoinable := false
  users := 1
  accessor := some creator

variable (o : ThreadObject Thread)

/-- The argument that `_isObjectFunctionArgument` selects is not `nil`. -/
def hasArgument : Bool :=
  if o.isObjectFunctionArgument then o.hasFunctionArgument else o.hasInvocation

/-- The thread object holds a reference to its argument. -/
def holds : Bool := o.hasInvocation || o.hasFunctionArgument

/-- `[… mulleRelinquishAccess];` -/
def relinquish (next : Statement Thread) : Outcome Thread :=
  if o.hasArgument then ⟨some .relinquish, some next, { o with accessor := none }⟩
  else ⟨none, some next, o⟩

/-- `[… mulleGainAccess];` in the thread `t`. -/
def gain (t : Thread) (next : Statement Thread) : Outcome Thread :=
  if o.hasArgument then ⟨some .gain, some next, { o with accessor := some t }⟩
  else ⟨none, some next, o⟩

/-- The invocation is given up and set to `nil`. -/
def giveUpInvocation (call : Call) (next : Option (Statement Thread)) : Outcome Thread :=
  ⟨if o.hasInvocation then some call else none, next, { o with hasInvocation := false }⟩

/-- The function argument is given up and set to `nil`. -/
def giveUpFunctionArgument (call : Call) (next : Option (Statement Thread)) : Outcome Thread :=
  ⟨if o.hasFunctionArgument then some call else none, next,
    { o with hasFunctionArgument := false }⟩

/-- A statement in the thread `t`. -/
def exec (t : Thread) : Statement Thread → Outcome Thread
  | .setDetached u => { next := some (.retain u), object := { o with isDetached := true } }
  | .retain u =>
    { next := some (.relinquish u), object := { o with retainCount := o.retainCount + 1 } }
  | .relinquish u => o.relinquish (.createThread u)
  | .createThread _ => { next := none, object := { o with isJoinable := true } }
  | .newPoolConfiguration => ⟨some .pushPool, some .gain, o⟩
  | .gain => o.gain t .setThreadDidGainAccess
  | .setThreadDidGainAccess =>
    { next := some .main, object := { o with threadDidGainAccess := true } }
  | .main => { next := some (.performFinalize .exit), object := o }
  | .performFinalize next =>
    if o.isFinalized then { next := some next.next, object := o }
    else
      { next := some (
          if o.isDetached then .autoreleaseInvocation next
          else if o.threadDidGainAccess then .relinquishInFinalize next
          else next.next)
        object := { o with isFinalized := true } }
  | .autoreleaseInvocation next =>
    o.giveUpInvocation .autorelease (some
      (if o.isObjectFunctionArgument then .autoreleaseFunctionArgument next else next.next))
  | .autoreleaseFunctionArgument next => o.giveUpFunctionArgument .autorelease (some next.next)
  | .relinquishInFinalize next => o.relinquish next.next
  | .releaseThreadObject =>
    { next := if o.retainCount = 1 then some (.performFinalize .dealloc) else none
      object := { o with retainCount := o.retainCount - 1 } }
  | .join => { next := some .gainInJoin, object := { o with isJoinable := false } }
  | .gainInJoin =>
    if o.threadDidGainAccess then o.gain t .autoreleaseInJoin
    else { next := some .autoreleaseInJoin, object := o }
  | .autoreleaseInJoin =>
    if o.isObjectFunctionArgument then o.giveUpFunctionArgument .autorelease none
    else o.giveUpInvocation .autorelease none
  | .gainInDealloc =>
    if o.threadDidGainAccess then o.gain t .releaseInvocation
    else { next := some .releaseInvocation, object := o }
  | .releaseInvocation =>
    o.giveUpInvocation .release
      (if o.isObjectFunctionArgument then some .releaseFunctionArgument else none)
  | .releaseFunctionArgument => o.giveUpFunctionArgument .release none

end ThreadObject

/-- A thread object and the threads that run its methods. -/
structure Control (Thread : Type*) where
  object : ThreadObject Thread
  /-- The thread that has called `-start`, `-mulleStart`, `-mulleJoin` or `-dealloc`. -/
  caller : Option (Thread × Statement Thread)
  /-- The new thread, which has ended if it has no next statement. -/
  thread : Option (Thread × Option (Statement Thread))

/-- What can happen to a thread object. -/
inductive ControlAct (Thread : Type*)
  /-- `-start` in the thread `t`, which creates the thread `u`. -/
  | start (t u : Thread)
  /-- `-mulleStart` in the thread `t`, which creates the thread `u`. -/
  | mulleStart (t u : Thread)
  | mulleJoin (t : Thread)
  /-- Other code takes a reference to the thread object. -/
  | retain
  /-- Other code gives up a reference to the thread object. -/
  | release (t : Thread)
  /-- The next statement of the calling thread. -/
  | runCaller
  /-- The next statement of the new thread. -/
  | runThread
  deriving DecidableEq

namespace Control

variable {Thread : Type*}

/-- A new thread object. -/
def created (creator : Thread) (isObjectFunctionArgument : Bool) : Control Thread :=
  ⟨.created creator isObjectFunctionArgument, none, none⟩

variable (c : Control Thread)

/-- A thread can go on. A second `-mulleStart` raises, and `mulle_thread_join` waits. -/
def goesOn : Statement Thread → Bool
  | .retain _ => c.thread.isNone
  | .join =>
    match c.thread with
    | some (_, none) => true
    | _ => false
  | _ => true

variable [DecidableEq Thread]

/-- A step with the call that it makes, and in which thread. Only code that holds a
reference uses the thread object, and a thread that is in one of its methods keeps one. It
is started and joined at most once, and not from the new thread. -/
def step : ControlAct Thread → Option (Option (Thread × Call) × Control Thread)
  | .start t u =>
    if c.caller = none ∧ c.thread = none ∧ 0 < c.object.users ∧ t ≠ u then
      some (none, { c with caller := some (t, .setDetached u) })
    else none
  | .mulleStart t u =>
    if c.caller = none ∧ c.thread = none ∧ 0 < c.object.users ∧ t ≠ u then
      some (none, { c with caller := some (t, .retain u) })
    else none
  | .mulleJoin t =>
    if c.object.isDetached then none
    else if c.caller = none ∧ c.object.isJoinable = true ∧ 0 < c.object.users ∧
        ∀ thread ∈ c.thread, t ≠ thread.1 then
      some (none, { c with caller := some (t, .join) })
    else none
  | .retain =>
    if 0 < c.object.users then
      some (none,
        { c with
          object.users := c.object.users + 1
          object.retainCount := c.object.retainCount + 1 })
    else none
  | .release t =>
    if 1 < c.object.users ∨ c.object.users = 1 ∧ c.caller = none then
      some (none,
        { c with
          object.users := c.object.users - 1
          object.retainCount := c.object.retainCount - 1
          caller :=
            if c.object.retainCount = 1 then some (t, .performFinalize .dealloc) else c.caller })
    else none
  | .runCaller =>
    match c.caller with
    | some (t, statement) =>
      if c.goesOn statement then
        let r := c.object.exec t statement
        some (r.call.map (t, ·),
          { object := r.object
            caller := r.next.map (t, ·)
            thread :=
              match statement with
              | .createThread u => some (u, some .newPoolConfiguration)
              | _ => c.thread })
      else none
    | none => none
  | .runThread =>
    match c.thread with
    | some (u, some statement) =>
      let r := c.object.exec u statement
      some (r.call.map (u, ·), { c with object := r.object, thread := some (u, r.next) })
    | _ => none

end Control

end MulleObjC.NSThread
