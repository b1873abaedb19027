import MulleObjC.Library.Machine
import MulleObjC.Pool.Configuration

/-!
# Running the pools of a thread

A release may run a `-dealloc`, which autoreleases, pushes and pops while the
pool functions that led to it are still at work. The functions are therefore run
step by step, with a frame for each one that has not returned. `-dealloc` code may
do everything but remove objects explicitly, and it leaves the stack of pools as
it found it; the code of the thread itself may do everything.
-/

namespace MulleObjC.Pool

/-- The part of a list behind the first element with a key. -/
def after {α : Type*} (key : α → ℕ) (a : ℕ) : List α → List α
  | [] => []
  | x :: xs => if key x = a then xs else after key a xs

variable {Obj : Type*}

namespace Storage

/-- The page with `below` pages behind it. -/
def pageAt : Storage Obj → ℕ → Option (PointerArray Obj)
  | [], _ => none
  | array :: previous, below =>
    if below = previous.length then some array else pageAt previous below

/-- Clear the slot `q` of the page with `below` pages behind it. -/
def clearAt : Storage Obj → ℕ → ℕ → Storage Obj
  | [], _, _ => []
  | array :: previous, below, q =>
    if below = previous.length then array.clear q :: previous
    else array :: clearAt previous below q

end Storage

/-- A function that has not returned yet. -/
inductive Frame (Obj : Type*)
  /-- A `-dealloc` that found `floor` pools. -/
  | dealloc (floor : ℕ)
  /-- `releaseAllObjectsInPool`, at its loop condition. It is called by
  `popAutoreleasePool` to pop down to `popTo`, or by `-mulleReleaseAllPoolObjects`. -/
  | releaseAll (pool : ℕ) (popTo : Option ℕ)
  /-- `_mulle_autoreleasepointerarray_release_and_free` with the slots of the page left
  to release, newest first, and the page `q`. -/
  | releaseAndFree (pool : ℕ) (objects : List (Option Obj)) (q : Storage Obj)
  /-- `_mulle_autoreleasepointerarray_release_objects` on the page of `pool` with
  `below` pages behind it, at the slot `q`; with `owners` the owners of the pool follow. -/
  | releaseObjects (ps : List Obj) (owners : Bool) (pool below q : ℕ)

/-- A thread that runs pool functions. -/
structure State (Obj : Type*) where
  config : PoolConfiguration Obj
  /-- The functions that have not returned, innermost first. Without any the code of
  the thread itself runs. -/
  frames : List (Frame Obj)
  /-- The address of the next pool. Addresses are not used again. -/
  nextPool : ℕ

/-- A thread without pools, with or without an object map. -/
def State.init (hasMap : Bool) : State Obj :=
  ⟨⟨[], if hasMap then some fun _ => 0 else none⟩, [], 0⟩

/-- What can happen next. -/
inductive Act (Obj : Type*)
  /-- `pushAutoreleasePool` -/
  | push
  /-- `-autorelease` -/
  | autorelease (p : Obj)
  /-- A bulk autorelease. -/
  | autoreleaseObjects (objects : Option (ℕ → Obj)) (count step : ℕ)
  /-- `popAutoreleasePool` -/
  | pop (aPool : ℕ)
  /-- `-mulleReleasePoolObjects:count:`, or the class method for all pools. -/
  | releasePoolObjects (ps : List Obj) (owners : Bool)
  /-- `-mulleReleaseAllPoolObjects` -/
  | releaseAllPoolObjects (pool : ℕ)
  /-- A `-dealloc` returns. -/
  | leave
  /-- The innermost pool function runs on. If it releases an object, `dealloc` tells
  whether this is the last reference. -/
  | run (dealloc : Bool)

/-- What is reported: entries that enter a pool and the release of an entry. -/
inductive Event (Obj : Type*)
  | added (pool : ℕ) (p : Obj)
  | released (pool : ℕ) (p : Obj)
  | pushed (pool : ℕ)
  | popped (pool : ℕ)
  deriving DecidableEq

/-- The storage of a pool. -/
def storageOf (pool : ℕ) : List (NSAutoreleasePool Obj) → Storage Obj
  | [] => []
  | p :: owner => if p.address = pool then p.storage else storageOf pool owner

/-- Change the storage of a pool. -/
def modifyStorage (pool : ℕ) (f : Storage Obj → Storage Obj) :
    List (NSAutoreleasePool Obj) → List (NSAutoreleasePool Obj)
  | [] => []
  | p :: owner =>
    if p.address = pool then { p with storage := f p.storage } :: owner
    else p :: modifyStorage pool f owner

/-- The addresses of the pools of a stack. -/
def addresses (pools : List (NSAutoreleasePool Obj)) : List ℕ :=
  pools.map NSAutoreleasePool.address

/-- The loop `for( pool = config->tail; pool; pool = pool->_owner) releaseObjects( pool, …)`
up to the first pool with storage; without `owners`, the single call. -/
def releaseObjectsFrame (ps : List Obj) (owners : Bool) :
    List (NSAutoreleasePool Obj) → List (Frame Obj)
  | [] => []
  | pool :: owner =>
    match pool.storage with
    | [] => if owners then releaseObjectsFrame ps owners owner else []
    | array :: previous =>
      [.releaseObjects ps owners pool.address previous.length array.used]

namespace State

variable [DecidableEq Obj] (isConstant : Obj → Bool)

/-- The addition of entries to the current pool. -/
def addedEvents (s : State Obj) (ps : List Obj) : List (Event Obj) :=
  match s.config.pools with
  | [] => []
  | pool :: _ => ps.map (Event.added pool.address)

/-- A call by code that leaves the lowest `floor` pools alone. -/
def call (s : State Obj) (floor : ℕ) : Act Obj → Option (List (Event Obj) × State Obj)
  | .push =>
    some ([.pushed s.nextPool],
      { s with
        config.pools := ⟨s.nextPool, [.init]⟩ :: s.config.pools
        nextPool := s.nextPool + 1 })
  | .autorelease p =>
    some (s.addedEvents (if isConstant p then [] else [p]),
      { s with config := s.config.autoreleaseObject isConstant p })
  | .autoreleaseObjects objects count step =>
    some (s.addedEvents (PoolConfiguration.addressed objects count step),
      { s with config := s.config.autoreleaseObjects objects count step })
  | .pop aPool =>
    match s.config.pools with
    | [] => none
    | tail :: _ =>
      if aPool ∈ (addresses s.config.pools).take (s.config.pools.length - floor) then
        some ([], { s with frames := .releaseAll tail.address (some aPool) :: s.frames })
      else none
  | _ => none

/-- The release of an entry of a pool: the map is updated, the object is released, and
its `-dealloc` runs if this was the last reference. -/
def releaseEntry (s : State Obj) (p : Obj) (dealloc : Bool) (frames : List (Frame Obj)) :
    State Obj where
  config.pools := s.config.pools
  config.objectMap := s.config.objectMap.map fun map => mapReleaseAndFree map p
  frames := if dealloc then .dealloc s.config.pools.length :: frames else frames
  nextPool := s.nextPool

/-- `releaseAllObjectsInPool` returns. `popAutoreleasePool` makes the owner the current
pool, frees the pool and goes on unless it was the one asked for. -/
def popTail (s : State Obj) (pool aPool : ℕ) (rest : List (Frame Obj)) :
    Option (List (Event Obj) × State Obj) :=
  let pools := after NSAutoreleasePool.address pool s.config.pools
  let s' := { s with config.pools := pools }
  if pool = aPool then some ([.popped pool], { s' with frames := rest })
  else
    match pools with
    | [] => none
    | tail :: _ =>
      some ([.popped pool], { s' with frames := .releaseAll tail.address (some aPool) :: rest })

/-- The innermost pool function runs on. -/
def runFrame (s : State Obj) (dealloc : Bool) (rest : List (Frame Obj)) :
    Frame Obj → Option (List (Event Obj) × State Obj)
  | .dealloc _ => none
  | .releaseAll pool popTo =>
    match storageOf pool s.config.pools with
    | array :: previous =>
      some ([],
        { s with
          config.pools := modifyStorage pool (fun _ => []) s.config.pools
          frames := .releaseAndFree pool array.objects.reverse previous ::
            .releaseAll pool popTo :: rest })
    | [] =>
      match popTo with
      | none => some ([], { s with frames := rest })
      | some aPool => s.popTail pool aPool rest
  | .releaseAndFree pool (some opfer :: objects) q =>
    some ([.released pool opfer],
      s.releaseEntry opfer dealloc (.releaseAndFree pool objects q :: rest))
  | .releaseAndFree pool (none :: objects) q =>
    some ([], { s with frames := .releaseAndFree pool objects q :: rest })
  | .releaseAndFree pool [] (array :: previous) =>
    some ([], { s with frames := .releaseAndFree pool array.objects.reverse previous :: rest })
  | .releaseAndFree _ [] [] => some ([], { s with frames := rest })
  | .releaseObjects ps owners pool (below + 1) 0 =>
    let used := ((storageOf pool s.config.pools).pageAt below).elim 0 PointerArray.used
    some ([], { s with frames := .releaseObjects ps owners pool below used :: rest })
  | .releaseObjects ps owners pool 0 0 =>
    let next := if owners then after NSAutoreleasePool.address pool s.config.pools else []
    some ([], { s with frames := releaseObjectsFrame ps owners next ++ rest })
  | .releaseObjects ps owners pool below (q + 1) =>
    match ((storageOf pool s.config.pools).pageAt below).bind (·.objects[q]?) with
    | some (some obj) =>
      let rest := .releaseObjects ps owners pool below q :: rest
      if obj ∈ ps then
        let pools := modifyStorage pool (·.clearAt below q) s.config.pools
        some ([.released pool obj],
          { s with config.pools := pools }.releaseEntry obj dealloc rest)
      else some ([], { s with frames := rest })
    | _ => some ([], { s with frames := .releaseObjects ps owners pool below q :: rest })

/-- One step of the thread. -/
def step (s : State Obj) (act : Act Obj) : Option (List (Event Obj) × State Obj) :=
  match s.frames, act with
  | [], .releasePoolObjects ps owners =>
    some ([], { s with frames := releaseObjectsFrame ps owners s.config.pools })
  | [], .releaseAllPoolObjects pool =>
    if pool ∈ addresses s.config.pools then
      some ([], { s with frames := [.releaseAll pool none] })
    else none
  | [], act => s.call isConstant 0 act
  | .dealloc floor :: rest, .leave =>
    if s.config.pools.length = floor then some ([], { s with frames := rest }) else none
  | .dealloc floor :: _, act => s.call isConstant floor act
  | frame :: rest, .run dealloc => s.runFrame dealloc rest frame
  | _, _ => none

end State

end MulleObjC.Pool
