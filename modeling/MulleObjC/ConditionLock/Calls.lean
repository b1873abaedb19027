import Mathlib.Logic.Function.Basic
import MulleObjC.Library.Machine

/-!
# Calls of an NSConditionLock

An `NSConditionLock` is a mutex, a condition variable and the word `_currentCondition`.
The threads take steps of their own: a method that is called first waits for the mutex, or
tries it, then reads the word, then may block in the condition variable. A broadcast ends
the wait of all threads, and the wait of a thread may also end without one. A thread whose
wait ended has to get the mutex again before it reads the word again.
-/

namespace MulleObjC.ConditionLock

/-- What a locking method wants `_currentCondition` to be. -/
inductive Wanted
  /-- `-lock` and `-tryLock` do not look. -/
  | any
  | whenCondition (value : BitVec 64)
  | whenNotCondition (value : BitVec 64)
  deriving DecidableEq, Repr

/-- The condition is as wanted. -/
def Wanted.met (currentCondition : BitVec 64) : Wanted → Bool
  | .any => true
  | .whenCondition value => value == currentCondition
  | .whenNotCondition value => value != currentCondition

/-- The methods of the lock. -/
inductive Method
  | lock
  | unlock
  | tryLock
  | lockWhenCondition (value : BitVec 64)
  | mulleLockWhenNotCondition (value : BitVec 64)
  | tryLockWhenCondition (value : BitVec 64)
  | mulleTryLockWhenNotCondition (value : BitVec 64)
  | unlockWithCondition (value : BitVec 64)
  | mulleUnlockWithCondition (value : BitVec 64) (broadcast : Bool)
  deriving DecidableEq, Repr

/-- Where a thread is. -/
inductive Position
  /-- Outside of all methods, with the lock or without it. -/
  | outside (held : Bool)
  /-- `[self lock]`, of a thread that may have the lock already. -/
  | lock (held : Bool) (wanted : Wanted)
  /-- The condition of the `while`. -/
  | test (wanted : Wanted)
  /-- About to enter `[self wait]`. -/
  | enterWait (wanted : Wanted)
  /-- Blocked in the condition variable. -/
  | wait (wanted : Wanted)
  /-- The wait is over, the mutex has to be locked again. -/
  | wakeup (wanted : Wanted)
  /-- `[self tryLock]`, of a thread that may have the lock already. -/
  | tryLock (held : Bool) (wanted : Wanted)
  /-- The condition of the `if` behind `[self tryLock]`. -/
  | tryTest (wanted : Wanted)
  /-- `[self unlock]` of a try that failed. -/
  | tryUnlock (wanted : Wanted)
  /-- About to write `_currentCondition`. -/
  | write (value : BitVec 64) (broadcast : Bool)
  /-- `[self broadcast]` or `[self signal]` -/
  | notify (broadcast : Bool)
  /-- `[self unlock]` -/
  | unlock
  deriving DecidableEq, Repr

/-- The thread has locked the mutex, by what it did itself. -/
def Position.holds : Position → Bool
  | .outside held | .lock held _ | .tryLock held _ => held
  | .wait _ | .wakeup _ => false
  | .test _ | .enterWait _ | .tryTest _ | .tryUnlock _ | .write _ _ | .notify _ | .unlock => true

/-- The thread is in one of the try methods. -/
def Position.isTry : Position → Bool
  | .tryLock _ _ | .tryTest _ | .tryUnlock _ => true
  | _ => false

/-- The first position in a method. A mutex is unlocked by the thread that locked it. -/
def Method.enter (held : Bool) : Method → Option Position
  | .lock => some (.lock held .any)
  | .lockWhenCondition value => some (.lock held (.whenCondition value))
  | .mulleLockWhenNotCondition value => some (.lock held (.whenNotCondition value))
  | .tryLock => some (.tryLock held .any)
  | .tryLockWhenCondition value => some (.tryLock held (.whenCondition value))
  | .mulleTryLockWhenNotCondition value => some (.tryLock held (.whenNotCondition value))
  | .unlock => if held then some .unlock else none
  | .unlockWithCondition value => if held then some (.write value true) else none
  | .mulleUnlockWithCondition value broadcast =>
    if held then some (.write value broadcast) else none

/-- What a thread can do. -/
inductive Act (Thread : Type*)
  | call (m : Method)
  /-- The next step of the method. -/
  | proceed
  /-- `mulle_thread_cond_signal`, with the thread that it picks if there is one. -/
  | signal (picked : Option Thread)
  /-- A spurious wakeup. -/
  | spurious
  deriving DecidableEq

/-- The methods that return. -/
inductive Event (Thread : Type*)
  | locked (t : Thread) (wanted : Wanted)
  /-- A try, with the answer. `held` tells if the caller had the lock before. -/
  | tried (t : Thread) (held : Bool) (wanted : Wanted) (success : Bool)
  | unlocked (t : Thread)
  deriving DecidableEq

/-- The lock and all threads. -/
structure State (Thread : Type*) where
  /-- The mutex `_lock`. -/
  owner : Option Thread
  currentCondition : BitVec 64
  position : Thread → Position

variable {Thread : Type*}

/-- `-initWithCondition:` -/
def State.initWithCondition (value : BitVec 64) : State Thread where
  owner := none
  currentCondition := value
  position _ := .outside false

/-- The end of the wait of a thread that waits. -/
def Position.woken : Position → Position
  | .wait wanted => .wakeup wanted
  | p => p

variable [DecidableEq Thread]

/-- A thread goes on, with the mutex as it then is. -/
def State.move (s : State Thread) (t : Thread) (owner : Option Thread) (p : Position) :
    State Thread :=
  { s with owner := owner, position := Function.update s.position t p }

/-- A step of a method. A thread that has to wait has no step. -/
def State.proceed (s : State Thread) (t : Thread) : Option (List (Event Thread) × State Thread) :=
  match s.position t with
  | .outside _ | .wait _ | .notify false => none
  | .lock _ .any =>
    if s.owner = none then some ([.locked t .any], s.move t (some t) (.outside true)) else none
  | .lock _ wanted | .wakeup wanted =>
    if s.owner = none then some ([], s.move t (some t) (.test wanted)) else none
  | .test wanted =>
    if wanted.met s.currentCondition then
      some ([.locked t wanted], s.move t s.owner (.outside true))
    else some ([], s.move t s.owner (.enterWait wanted))
  | .enterWait wanted => some ([], s.move t none (.wait wanted))
  | .tryLock held wanted =>
    if s.owner = none then
      match wanted with
      | .any => some ([.tried t held .any true], s.move t (some t) (.outside true))
      | _ => some ([], s.move t (some t) (.tryTest wanted))
    else some ([.tried t held wanted false], s.move t s.owner (.outside held))
  | .tryTest wanted =>
    if wanted.met s.currentCondition then
      some ([.tried t false wanted true], s.move t s.owner (.outside true))
    else some ([], s.move t s.owner (.tryUnlock wanted))
  | .tryUnlock wanted => some ([.tried t false wanted false], s.move t none (.outside false))
  | .write value broadcast =>
    some ([], { s.move t s.owner (.notify broadcast) with currentCondition := value })
  | .notify true =>
    some ([], { s with position := Function.update (fun u => (s.position u).woken) t .unlock })
  | .unlock => some ([.unlocked t], s.move t none (.outside false))

/-- A step of a thread. -/
def State.step (s : State Thread) :
    Thread × Act Thread → Option (List (Event Thread) × State Thread)
  | (t, .call m) =>
    match s.position t with
    | .outside held => (m.enter held).map fun p => ([], s.move t s.owner p)
    | _ => none
  | (t, .proceed) => s.proceed t
  | (t, .signal picked) =>
    match s.position t with
    | .notify false =>
      some ([], { s with
        position := Function.update
          (fun u => if picked = some u then (s.position u).woken else s.position u) t .unlock })
    | _ => none
  | (t, .spurious) =>
    match s.position t with
    | .wait wanted => some ([], s.move t s.owner (.wakeup wanted))
    | _ => none

/-- `mulleUnlockWithCondition:broadcast:` is called with `YES`. -/
def Broadcasts : Thread × Act Thread → Prop
  | (_, .call (.mulleUnlockWithCondition _ broadcast)) => broadcast = true
  | _ => True

end MulleObjC.ConditionLock
