import Mathlib.Logic.Function.Basic
import MulleObjC.Library.Machine
import MulleObjC.Library.RecursiveLock

/-!
# Calls of a MulleObject

A call of a locking method is dispatched to `-__lockingForward:`, which reads `__lock`,
locks what it read, invokes the method and unlocks the lock that it read. Super calls
find their method without a lock. `-shareRecursiveLock:` replaces `__lock` and is itself
a locking method. Reading the lock, locking it and returning are steps of their own.
-/

namespace MulleObjC.Autolock

/-- What `is_a_locking_descriptor` looks at in a method family. -/
inductive MethodFamily
  | init
  | dealloc
  | other
  deriving DecidableEq, Repr

/-- `struct _mulle_objc_descriptor` -/
structure Descriptor where
  isThreadaffine : Bool
  methodfamily : MethodFamily
  deriving DecidableEq, Repr

/-- `is_a_locking_descriptor` -/
def isALockingDescriptor (desc : Descriptor) : Bool :=
  if !desc.isThreadaffine then false
  else
    match desc.methodfamily with
    | .init | .dealloc => false
    | .other => true

/-- The implementation that a message is dispatched to. -/
inductive Implementation
  /-- The method that was found. -/
  | method
  /-- `-__lockingForward:` or `-__lockingSuperForward:` -/
  | lockingForward
  deriving DecidableEq, Repr

/-- `_MulleObjectRefreshMethodNofail`, of the descriptor the search found. -/
def refreshMethodNofail : Option Descriptor → Implementation
  | none => .lockingForward
  | some desc => if isALockingDescriptor desc then .lockingForward else .method

/-- `_MulleObjectRefreshSuperMethodNofail`, of the descriptor the search found. -/
def refreshSuperMethodNofail : Option Descriptor → Implementation
  | none => .lockingForward
  | some _ => .method

/-- A message to an object. -/
inductive Message (Obj Lock : Type*)
  /-- Any selector, with the descriptor of the method that a search finds. -/
  | selector (found : Option Descriptor)
  | shareRecursiveLock (lock : Option Lock)
  | shareRecursiveLockWithObject (other : Option Obj)
  deriving DecidableEq

/-- The descriptor that a search finds. `-shareRecursiveLockWithObject:` is a
`MULLE_OBJECT_SKIP_AUTOLOCKING_METHOD`. -/
def Message.found {Obj Lock : Type*} : Message Obj Lock → Option Descriptor
  | selector found => found
  | shareRecursiveLock _ => some ⟨true, .other⟩
  | shareRecursiveLockWithObject _ => some ⟨false, .other⟩

/-- The message runs a locking method, or is forwarded with the lock. -/
def Message.isLocking {Obj Lock : Type*} (m : Message Obj Lock) : Bool :=
  decide (refreshMethodNofail m.found = .lockingForward)

/-- What a method still has to do before it runs any code. -/
inductive Body (Obj Lock : Type*)
  | code
  /-- `if( lock == self->__lock) return;` -/
  | compareLock (lock : Option Lock)
  /-- `self->__lock = [lock retain];` -/
  | storeLock (lock : Option Lock)
  /-- `other->__lock` -/
  | readOther (other : Option Obj)
  deriving DecidableEq

/-- The body of the method for a message. -/
def Message.body {Obj Lock : Type*} : Message Obj Lock → Body Obj Lock
  | selector _ => .code
  | shareRecursiveLock lock => .compareLock lock
  | shareRecursiveLockWithObject other => .readOther other

/-- How far a call is. -/
inductive Stage (Lock : Type*)
  /-- Dispatched to `-__lockingForward:`. -/
  | sent
  /-- `__lock` was read. -/
  | read (lock : Option Lock)
  /-- In the body of the method, with the lock to unlock. -/
  | inside (lock : Option Lock)
  deriving DecidableEq

/-- A call in flight. -/
structure Frame (Obj Lock : Type*) where
  obj : Obj
  isLocking : Bool
  body : Body Obj Lock
  stage : Stage Lock
  deriving DecidableEq

/-- A message is dispatched. -/
def Frame.dispatched {Obj Lock : Type*} (o : Obj) (m : Message Obj Lock) :
    Implementation → Frame Obj Lock
  | .method => ⟨o, m.isLocking, m.body, .inside none⟩
  | .lockingForward => ⟨o, m.isLocking, m.body, .sent⟩

/-- All threads, objects and locks. -/
structure State (Thread Obj Lock : Type*) where
  /-- The calls in flight of each thread, the innermost first. -/
  stack : Thread → List (Frame Obj Lock)
  /-- `__lock` -/
  lock : Obj → Option Lock
  /-- The thread that an object without a lock belongs to. -/
  affinity : Obj → Option Thread
  recursiveLock : Lock → RecursiveLock Thread

/-- What a thread can do. -/
inductive Act (Obj Lock : Type*)
  /-- Send a message. -/
  | call (o : Obj) (m : Message Obj Lock)
  /-- Send a message to `super`. -/
  | callSuper (m : Message Obj Lock)
  /-- `lock = __lock` -/
  | readLock
  /-- `_MulleObjCRecursiveLockLock` and the invocation of the method. -/
  | acquire
  /-- The next step of a method that shares locks. -/
  | share
  /-- Return, with `_MulleObjCRecursiveLockUnlock`. -/
  | ret

variable {Thread Obj Lock : Type*} [DecidableEq Thread] [DecidableEq Obj] [DecidableEq Lock]

/-- The thread runs code and may send messages. -/
def RunsCode : List (Frame Obj Lock) → Bool
  | [] => true
  | ⟨_, _, .code, .inside _⟩ :: _ => true
  | _ => false

namespace State

variable (s : State Thread Obj Lock)

/-- Replace the calls in flight of a thread. -/
def setStack (t : Thread) (stack : List (Frame Obj Lock)) : State Thread Obj Lock :=
  { s with stack := Function.update s.stack t stack }

/-- `self->__lock = lock` and `-didShareRecursiveLock:`, which makes an object without a
lock belong to the thread. -/
def storeLock (t : Thread) (o : Obj) (lock : Option Lock) : State Thread Obj Lock :=
  { s with
    lock := Function.update s.lock o lock
    affinity := Function.update s.affinity o (if lock.isSome then none else some t) }

/-- `_MulleObjCRecursiveLockLock`, of a lock that can be `nil`. -/
def lockLock (t : Thread) : Option Lock → Option (State Thread Obj Lock)
  | none => some s
  | some l => ((s.recursiveLock l).lock t).map fun r =>
    { s with recursiveLock := Function.update s.recursiveLock l r }

/-- `_MulleObjCRecursiveLockUnlock`, of a lock that can be `nil`. -/
def lockUnlock (t : Thread) : Option Lock → Option (State Thread Obj Lock)
  | none => some s
  | some l => ((s.recursiveLock l).unlock t).map fun r =>
    { s with recursiveLock := Function.update s.recursiveLock l r }

/-- A step of a thread. A thread that has to wait for a lock has no step. -/
def step : Thread × Act Obj Lock → Option (State Thread Obj Lock)
  | (t, .call o m) =>
    if RunsCode (s.stack t) then
      some (s.setStack t (.dispatched o m (refreshMethodNofail m.found) :: s.stack t))
    else none
  | (t, .callSuper m) =>
    match s.stack t with
    | ⟨o, locking, .code, .inside lock⟩ :: below =>
      some (s.setStack t (.dispatched o m (refreshSuperMethodNofail m.found) ::
        ⟨o, locking, .code, .inside lock⟩ :: below))
    | _ => none
  | (t, .readLock) =>
    match s.stack t with
    | ⟨o, locking, body, .sent⟩ :: below =>
      some (s.setStack t (⟨o, locking, body, .read (s.lock o)⟩ :: below))
    | _ => none
  | (t, .acquire) =>
    match s.stack t with
    | ⟨o, locking, body, .read lock⟩ :: below =>
      (s.lockLock t lock).map fun s' => s'.setStack t (⟨o, locking, body, .inside lock⟩ :: below)
    | _ => none
  | (t, .share) =>
    match s.stack t with
    | ⟨o, locking, .compareLock lock, .inside held⟩ :: below =>
      some (s.setStack t
        (⟨o, locking, if lock = s.lock o then .code else .storeLock lock, .inside held⟩ :: below))
    | ⟨o, locking, .storeLock lock, .inside held⟩ :: below =>
      some ((s.storeLock t o lock).setStack t (⟨o, locking, .code, .inside held⟩ :: below))
    | ⟨o, locking, .readOther other, .inside held⟩ :: below =>
      some (s.setStack t
        (.dispatched o (.shareRecursiveLock (other.bind s.lock)) .lockingForward ::
          ⟨o, locking, .code, .inside held⟩ :: below))
    | _ => none
  | (t, .ret) =>
    match s.stack t with
    | ⟨_, _, .code, .inside lock⟩ :: below =>
      (s.lockUnlock t lock).map fun s' => s'.setStack t below
    | _ => none

/-- Every object was created with a lock of its own or shares one, and nothing runs. -/
def created (lock : Obj → Lock) : State Thread Obj Lock where
  stack _ := []
  lock o := some (lock o)
  affinity _ := none
  recursiveLock _ := none

/-- The thread is in the body of a locking method of the object. -/
def InBody (t : Thread) (o : Obj) : Prop :=
  ∃ F ∈ s.stack t, F.obj = o ∧ F.isLocking = true ∧ ∃ lock, F.stage = .inside lock

end State

end MulleObjC.Autolock
