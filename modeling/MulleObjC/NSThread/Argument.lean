import MulleObjC.Access.Balance
import MulleObjC.NSThread.Turns

/-!
# The argument of a thread object

The thread object holds one reference to its argument until it gives it up, once. Its threads
relinquish and gain access in turn, so that an argument that belongs to one thread at a time
is never accessible to two.
-/

namespace MulleObjC.NSThread

open Access Machine

variable {Thread Obj : Type*}

/-- What a call does about the argument, or about the pools of its thread. -/
def Call.act (argument : Obj) : Call → Access.Act Obj
  | .relinquish => .relinquish argument
  | .gain => .gain argument
  | .autorelease => .pool (.autorelease argument)
  | .release => .release argument
  | .pushPool => .pool .push

/-- All threads and objects, with a thread object. -/
structure State (Thread Obj : Type*) where
  world : World Thread Obj
  control : Control Thread
  /-- The references to the argument that other code holds. -/
  external : ℕ

/-- What can happen. -/
inductive Act (Thread Obj : Type*)
  /-- Other code in the thread `t`. -/
  | other (t : Thread) (act : Access.Act Obj)
  | control (act : ControlAct Thread)

variable [DecidableEq Thread] [DecidableEq Obj]

/-- Code other than the thread object leaves access to the argument alone. -/
def leavesArgument (argument : Obj) : Access.Act Obj → Bool
  | .alloc o _ | .relinquish o | .gain o => o ≠ argument
  | _ => true

namespace State

variable (classes : Classes Obj) (argument : Obj)

/-- A thread object has been created, which has retained its argument. -/
def created (world : World Thread Obj) (external : ℕ) (creator : Thread)
    (isObjectFunctionArgument : Bool) : State Thread Obj :=
  ⟨world, .created creator isObjectFunctionArgument, external⟩

variable (s : State Thread Obj)

/-- One step. Other code gives up references of its own only. -/
def step : Act Thread Obj → Option (List (Pool.Event Obj) × State Thread Obj)
  | .other t act =>
    if leavesArgument argument act then
      match s.world.step classes (t, act) with
      | none => none
      | some (es, world) =>
        if s.world.owners argument ≤ s.external + world.owners argument then
          some (es,
            { s with
              world := world
              external := s.external + world.owners argument - s.world.owners argument })
        else none
    else none
  | .control act =>
    match s.control.step act with
    | none => none
    | some (none, control) => some ([], { s with control := control })
    | some (some (t, call), control) =>
      match s.world.step classes (t, call.act argument) with
      | none => none
      | some (es, world) => some (es, { s with world := world, control := control })

/-- A thread that starts the new one has access to the argument, and a thread that gains access
or autoreleases has a pool. -/
def Legal : Act Thread Obj → Prop
  | .other t act => s.world.PoolInPlace (t, act)
  | .control (.start t _) | .control (.mulleStart t _) =>
    HasAccess (classes.strategy argument) (s.world.threadId argument) t
  | .control act => ∀ r ∈ s.control.step act, ∀ call ∈ r.1,
    s.world.PoolInPlace (call.1, call.2.act argument)

/-- The states that legal runs reach, behind the creation of a thread object by the thread
`creator`, which has access to the argument. -/
def Reachable (creator : Thread) : Prop :=
  ∃ (hasMap : Bool) (threadId : Obj → ThreadId Thread) (es₀ es₁ es : List (Pool.Event Obj))
    (w w' : World Thread Obj) (isObjectFunctionArgument : Bool),
    RunWhile (World.step classes) World.PoolInPlace (.init classes hasMap threadId) es₀ w ∧
    w.relinquished argument = 0 ∧
    HasAccess (classes.strategy argument) (w.threadId argument) creator ∧
    w.step classes (creator, .retain argument) = some (es₁, w') ∧
    RunWhile (step classes argument) (Legal classes argument)
      (created w' (w.owners argument) creator isObjectFunctionArgument) es s

variable [Fintype Thread] (creator : Thread)

/-- The invariant: the books of the thread object are those of the world. -/
structure Tracks : Prop where
  sound : s.world.Sound classes
  consistent : s.control.Consistent creator
  owners : s.world.owners argument = s.external + s.control.object.holds.toNat
  relinquished : s.world.relinquished argument = s.control.object.accessor.isNone.toNat
  access : (classes.strategy argument).IsKnownThreadSafe ∨
    s.world.threadId argument = .isThreadsafe ∨
    s.world.threadId argument = s.control.object.accessor.elim .hasNoThread .thread
  pinned : classes.isConstant argument = true → 0 < s.world.retainCount argument
  starting : ∀ t statement, s.control.caller = some (t, statement) → statement.role = .start →
    s.control.object.accessor ≠ none →
    HasAccess (classes.strategy argument) (s.world.threadId argument) t

variable {classes argument s creator} {s' : State Thread Obj} {es : List (Pool.Event Obj)}

theorem Tracks.other (h : s.Tracks classes argument creator) {t : Thread} {act : Access.Act Obj}
    (hplace : s.world.PoolInPlace (t, act))
    (hs : s.step classes argument (.other t act) = some (es, s')) :
    s'.Tracks classes argument creator := by
  simp only [step] at hs
  split at hs
  next hleaves =>
    split at hs
    · cases hs
    next fs world hworld =>
      split at hs
      next hgives =>
        obtain ⟨rfl, rfl⟩ := Prod.mk.inj (Option.some.inj hs)
        have haccess : world.threadId argument = s.world.threadId argument ∧
            world.relinquished argument = s.world.relinquished argument := by
          refine step_access ?_ ?_ ?_ hworld
          · rintro isThreadsafe rfl
            simp [leavesArgument] at hleaves
          · rintro rfl
            simp [leavesArgument] at hleaves
          · rintro rfl
            simp [leavesArgument] at hleaves
        obtain ⟨hid, hrelinquished⟩ := haccess
        have howners := h.owners
        refine ⟨sound_step h.sound hplace hworld, h.consistent, ?_,
          hrelinquished.trans h.relinquished, ?_, fun hconstant => ?_,
          fun t statement hcaller hrole haccessor => ?_⟩
        · dsimp only
          omega
        · rw [hid]
          exact h.access
        · rw [retainCount_of_constant hconstant hworld]
          exact h.pinned hconstant
        · rw [hid]
          exact h.starting t statement hcaller hrole haccessor
      · cases hs
  · cases hs

/-- Before it relinquishes access, the thread that starts the new one has access. -/
theorem Tracks.starting_step (h : s.Tracks classes argument creator) {act : ControlAct Thread}
    (hlegal : s.Legal classes argument (.control act)) {call : Option (Thread × Call)}
    {control : Control Thread} (hs : s.control.step act = some (call, control)) {t : Thread}
    {statement : Statement Thread} (hcaller : control.caller = some (t, statement))
    (hrole : statement.role = .start) (haccessor : control.object.accessor ≠ none) :
    call = none ∧ HasAccess (classes.strategy argument) (s.world.threadId argument) t := by
  have heffect := (h.consistent.step hs).2
  obtain ⟨⟨u, rfl | rfl⟩, rfl⟩ | ⟨⟨before, hbefore, hstart⟩, rfl | rfl⟩ :=
    h.consistent.start_step hs hcaller hrole
  · exact ⟨rfl, hlegal⟩
  · exact ⟨rfl, hlegal⟩
  · exact ⟨rfl, h.starting t before hbefore hstart (heffect.2 ▸ haccessor)⟩
  · exact absurd heffect.2.2.2 haccessor

omit [Fintype Thread] in
/-- The references to the argument that code holds, behind a call. -/
theorem owners_call {t : Thread} {call : Call} {w w' : World Thread Obj}
    (h : w.step classes (t, call.act argument) = some (es, w')) :
    w.owners argument =
      w'.owners argument + (decide (call = .autorelease ∨ call = .release)).toNat := by
  cases call with
  | relinquish =>
    obtain ⟨-, -, pools, -, hw', -⟩ := step_relinquish h
    rw [hw']
    rfl
  | gain =>
    obtain ⟨-, pools, -, rfl⟩ := step_gain_eq h
    rfl
  | autorelease =>
    obtain ⟨hguard, pools, -, rfl⟩ := step_pool_eq h
    have howned := hguard argument (by simp [handedOver])
    simp only [handedOver, List.count_singleton_self] at howned ⊢
    simp
    omega
  | release =>
    obtain ⟨howned, rfl⟩ := step_release_eq h
    simp
    omega
  | pushPool =>
    obtain ⟨-, pools, -, rfl⟩ := step_pool_eq h
    simp [handedOver]

omit [DecidableEq Thread] in
/-- Who has access to the argument, when nobody has relinquished or gained it. -/
theorem Tracks.access_congr (h : s.Tracks classes argument creator) {o : ThreadObject Thread}
    (ho : o.accessor = s.control.object.accessor) {world : World Thread Obj}
    (hworld : world.threadId argument = s.world.threadId argument ∧
      world.relinquished argument = s.world.relinquished argument) :
    world.relinquished argument = o.accessor.isNone.toNat ∧
      ((classes.strategy argument).IsKnownThreadSafe ∨
        world.threadId argument = .isThreadsafe ∨
        world.threadId argument = o.accessor.elim .hasNoThread .thread) := by
  rw [hworld.1, hworld.2, ho]
  exact ⟨h.relinquished, h.access⟩

/-- Who has access to the argument behind a call. -/
theorem Tracks.access_call (h : s.Tracks classes argument creator) {t : Thread} {call : Call}
    {o : ThreadObject Thread} (heffect : s.control.object.Effect o t (some call))
    {world : World Thread Obj}
    (hworld : s.world.step classes (t, call.act argument) = some (es, world)) :
    world.relinquished argument = o.accessor.isNone.toNat ∧
      ((classes.strategy argument).IsKnownThreadSafe ∨
        world.threadId argument = .isThreadsafe ∨
        world.threadId argument = o.accessor.elim .hasNoThread .thread) := by
  have hrelinquished := h.relinquished
  cases call with
  | relinquish =>
    obtain ⟨-, -, -, haccessor⟩ := heffect
    obtain ⟨-, hzero, pools, -, hw', -, hsafe, hid⟩ := step_relinquish hworld
    rw [haccessor]
    constructor
    · rw [hw']
      simp [hzero]
    · by_cases hknown : (classes.strategy argument).IsKnownThreadSafe
      · exact .inl hknown
      · by_cases hthreadsafe : s.world.threadId argument = .isThreadsafe
        · exact .inr (.inl (hsafe hthreadsafe))
        · exact .inr (.inr (hid hthreadsafe hknown))
  | gain =>
    obtain ⟨-, hnone, -, haccessor⟩ := heffect
    obtain ⟨-, pools, -, rfl⟩ := step_gain_eq hworld
    rw [haccessor]
    constructor
    · simp [hrelinquished, hnone]
    · by_cases hknown : (classes.strategy argument).IsKnownThreadSafe
      · exact .inl hknown
      · by_cases hthreadsafe : s.world.threadId argument = .isThreadsafe
        · refine .inr (.inl ?_)
          simp [hthreadsafe, gainedId_of_isThreadsafe]
        · refine .inr (.inr ?_)
          simp [gainedId_eq hthreadsafe hknown]
  | autorelease =>
    refine h.access_congr heffect.2.2 (step_access ?_ ?_ ?_ hworld) <;> simp [Call.act]
  | release =>
    refine h.access_congr heffect.2.2 (step_access ?_ ?_ ?_ hworld) <;> simp [Call.act]
  | pushPool =>
    refine h.access_congr heffect.2 (step_access ?_ ?_ ?_ hworld) <;> simp [Call.act]

omit [DecidableEq Thread] [DecidableEq Obj] [Fintype Thread] in
/-- What a call does to the reference that the thread object holds. -/
theorem holds_call {t : Thread} {call : Call} {o o' : ThreadObject Thread}
    (h : o.Effect o' t (some call)) :
    o.holds.toNat = o'.holds.toNat + (decide (call = .autorelease ∨ call = .release)).toNat := by
  cases call with
  | relinquish => simp [h.1, h.2.2.1]
  | gain => simp [h.1, h.2.2.1]
  | autorelease => simp [h.1, h.2.1]
  | release => simp [h.1, h.2.1]
  | pushPool => simp [h.1]

omit [DecidableEq Obj] [Fintype Thread] in
/-- A thread that gains access or autoreleases has a pool. -/
theorem Legal.poolInPlace {act : ControlAct Thread} (h : s.Legal classes argument (.control act))
    {t : Thread} {call : Call} {control : Control Thread}
    (hs : s.control.step act = some (some (t, call), control)) :
    s.world.PoolInPlace (t, call.act argument) := by
  cases act with
  | start t u | mulleStart t u =>
    simp only [Control.step] at hs
    split at hs <;> simp at hs
  | _ => exact h _ hs _ rfl

/-- A call by the thread object. -/
theorem Tracks.call (h : s.Tracks classes argument creator) {act : ControlAct Thread}
    (hlegal : s.Legal classes argument (.control act)) {t : Thread} {call : Call}
    {control : Control Thread} (hs : s.control.step act = some (some (t, call), control))
    {world : World Thread Obj}
    (hworld : s.world.step classes (t, call.act argument) = some (es, world)) :
    State.Tracks classes argument { s with world := world, control := control } creator := by
  obtain ⟨hconsistent, heffect⟩ := h.consistent.step hs
  have howners : world.owners argument = s.external + control.object.holds.toNat := by
    have := h.owners
    have := owners_call hworld
    have := holds_call heffect
    omega
  obtain ⟨hrelinquished, haccess⟩ := h.access_call heffect hworld
  refine ⟨sound_step h.sound (hlegal.poolInPlace hs) hworld, hconsistent, howners, hrelinquished,
    haccess, fun hconstant => ?_, fun u statement hcaller hrole haccessor => ?_⟩
  · rw [retainCount_of_constant hconstant hworld]
    exact h.pinned hconstant
  · exact absurd (h.starting_step hlegal hs hcaller hrole haccessor).1 nofun

theorem Tracks.control (h : s.Tracks classes argument creator) {act : ControlAct Thread}
    (hlegal : s.Legal classes argument (.control act))
    (hs : s.step classes argument (.control act) = some (es, s')) :
    s'.Tracks classes argument creator := by
  simp only [step] at hs
  split at hs
  · cases hs
  next control hcontrol =>
    obtain ⟨rfl, rfl⟩ := Prod.mk.inj (Option.some.inj hs)
    obtain ⟨hconsistent, hholds, haccessor⟩ := h.consistent.step hcontrol
    refine ⟨h.sound, hconsistent, ?_, ?_, ?_, h.pinned, fun t statement hcaller hrole hne => ?_⟩
    · rw [hholds]
      exact h.owners
    · rw [haccessor]
      exact h.relinquished
    · rw [haccessor]
      exact h.access
    · exact (h.starting_step hlegal hcontrol hcaller hrole hne).2
  next t call control hcontrol =>
    split at hs
    · cases hs
    next fs world hworld =>
      obtain ⟨rfl, rfl⟩ := Prod.mk.inj (Option.some.inj hs)
      exact h.call hlegal hcontrol hworld

theorem Tracks.step (h : s.Tracks classes argument creator) {act : Act Thread Obj}
    (hlegal : s.Legal classes argument act) (hs : s.step classes argument act = some (es, s')) :
    s'.Tracks classes argument creator := by
  cases act with
  | other t act => exact h.other hlegal hs
  | control act => exact h.control hlegal hs

/-- A thread object that has just been created. -/
theorem tracks_created {w w' : World Thread Obj} (hw : w.Sound classes)
    (hrelinquished : w.relinquished argument = 0)
    (haccess : HasAccess (classes.strategy argument) (w.threadId argument) creator)
    (hretain : w.step classes (creator, .retain argument) = some (es, w'))
    (isObjectFunctionArgument : Bool) :
    (created w' (w.owners argument) creator isObjectFunctionArgument).Tracks classes argument
      creator := by
  have hsound := sound_retain hw hretain
  obtain ⟨hlive, rfl⟩ := step_retain_eq hretain
  refine ⟨hsound, Control.consistent_created .., ?_, hrelinquished, haccess,
    fun hconstant => ?_, fun t statement hcaller => nomatch hcaller⟩
  · cases isObjectFunctionArgument <;> simp [created, Control.created, ThreadObject.created,
      ThreadObject.holds]
  · change 0 < w.retain classes argument argument
    rwa [retain_of_constant hconstant]

omit [DecidableEq Thread] in
/-- The argument lives while the thread object holds it. -/
theorem Tracks.live (h : s.Tracks classes argument creator)
    (hholds : s.control.object.holds = true) : 0 < s.world.retainCount argument := by
  by_cases hconstant : classes.isConstant argument = true
  · exact h.pinned hconstant
  · have hbalanced := h.sound.balanced argument (by simpa using hconstant)
    have howners := h.owners
    rw [World.Balanced] at hbalanced
    rw [hholds, Bool.toNat_true] at howners
    omega

omit [DecidableEq Thread] [Fintype Thread] in
/-- Code can push a pool and put an object into one. -/
theorem step_of_runsCode {pools : Pool.State Obj} (hcode : RunsCode pools = true)
    (isConstant : Obj → Bool) (argument : Obj) {act : Pool.Act Obj}
    (hact : act = .push ∨ act = .autorelease argument) :
    ∃ es pools', pools.step isConstant act = some (es, pools') := by
  obtain ⟨config, frames⟩ := pools
  rcases frames with _ | ⟨frame, frames⟩
  · obtain rfl | rfl := hact <;> exact ⟨_, _, rfl⟩
  · cases frame with
    | dealloc floor => obtain rfl | rfl := hact <;> exact ⟨_, _, rfl⟩
    | _ => cases hcode

/-- The thread object calls nothing that it must not call. -/
theorem Tracks.isSome_call (h : s.Tracks classes argument creator) {act : ControlAct Thread}
    {t : Thread} {call : Call} {control : Control Thread}
    (hs : s.control.step act = some (some (t, call), control))
    (hcode : RunsCode (s.world.pools t) = true) :
    (s.world.step classes (t, call.act argument)).isSome = true := by
  obtain ⟨hconsistent, heffect⟩ := h.consistent.step hs
  have howners := h.owners
  have hrelinquished := h.relinquished
  cases call with
  | relinquish =>
    obtain ⟨hholds, haccessor, -, -⟩ := heffect
    obtain ⟨accessor, haccessor⟩ := Option.isSome_iff_exists.mp haccessor
    have haccess : HasAccess (classes.strategy argument) (s.world.threadId argument) t := by
      obtain ⟨statement, hcaller, hrole⟩ | hown := h.consistent.relinquish_step hs
      · exact h.starting t statement hcaller hrole (by simp [haccessor])
      · have haccess := h.access
        rwa [hown] at haccess
    have hzero : s.world.relinquished argument = 0 := by
      simpa [haccessor] using hrelinquished
    rw [Call.act, World.step, if_pos ⟨hcode, h.live hholds, hzero, haccess⟩]
    cases removal (classes.strategy argument) (s.world.threadId argument) <;> rfl
  | gain =>
    have hpositive : 0 < s.world.relinquished argument := by simp [hrelinquished, heffect.2.1]
    obtain ⟨es, pools, hpools⟩ := step_of_runsCode hcode classes.isConstant argument (.inr rfl)
    rw [Call.act, World.step, if_pos hpositive, hpools]
    rfl
  | autorelease =>
    obtain ⟨es, pools, hpools⟩ := step_of_runsCode hcode classes.isConstant argument (.inr rfl)
    rw [heffect.1, Bool.toNat_true] at howners
    have hguard : ∀ o ∈ handedOver (.autorelease argument),
        (handedOver (.autorelease argument)).count o ≤ s.world.owners o := by
      intro o ho
      obtain rfl : o = argument := by simpa [handedOver] using ho
      simp [handedOver]
      omega
    simp only [Call.act, World.step, hpools]
    rw [if_pos ⟨hguard, rfl⟩]
    rfl
  | release =>
    rw [heffect.1, Bool.toNat_true] at howners
    rw [Call.act, World.step, if_pos (by omega)]
    rfl
  | pushPool =>
    obtain ⟨es, pools, hpools⟩ := step_of_runsCode hcode classes.isConstant argument (.inl rfl)
    simp only [Call.act, World.step, hpools]
    rw [if_pos ⟨by simp [handedOver], rfl⟩]
    rfl

theorem Reachable.tracks (h : s.Reachable classes argument creator) :
    s.Tracks classes argument creator := by
  obtain ⟨hasMap, threadId, es₀, es₁, es, w, w', flag, hworld, hrelinquished, haccess, hretain,
    hrun⟩ := h
  have hsound : w.Sound classes :=
    hworld.invariant (World.Sound classes) (fun hplace hw hstep => sound_step hw hplace hstep)
      (sound_init hasMap threadId)
  exact hrun.invariant (fun s => s.Tracks classes argument creator)
    (fun hlegal h hstep => h.step hlegal hstep)
    (tracks_created hsound hrelinquished haccess hretain flag)

omit [DecidableEq Thread] in
/-- The thread that has gained access last is the only one that has it. -/
theorem Tracks.hasAccess_iff (h : s.Tracks classes argument creator)
    (hid : s.world.threadId argument ≠ .isThreadsafe)
    (hstrategy : ¬ (classes.strategy argument).IsKnownThreadSafe) (t : Thread) :
    HasAccess (classes.strategy argument) (s.world.threadId argument) t ↔
      s.control.object.accessor = some t := by
  obtain hknown | hthreadsafe | haccessor := h.access
  · exact absurd hknown hstrategy
  · exact absurd hthreadsafe hid
  · rw [HasAccess, haccessor]
    cases s.control.object.accessor <;> simp [hstrategy]

end State

/-- For every thread object and in every legal run of its threads: it holds one reference to the
argument until it has given it up, once, and the reference of a relinquish is outstanding until
the next gain; when the thread object is gone, neither is left. If the argument belongs to one
thread at a time, the thread that has gained access last has it and no other thread: the creator,
then the new thread, then the joining or the deallocating one. Nothing is called that must not be
called. -/
theorem argument_handled [Fintype Thread] {classes : Classes Obj} {argument : Obj} {creator : Thread}
    {s : State Thread Obj} (h : s.Reachable classes argument creator) :
    (s.world.owners argument = s.external + s.control.object.holds.toNat ∧
      s.world.relinquished argument = s.control.object.accessor.isNone.toNat ∧
      (classes.isConstant argument = false → s.world.retainCount argument =
        s.external + s.control.object.holds.toNat +
          (∑ t, (s.world.pools t).pending (fun _ => true) argument) +
          s.control.object.accessor.isNone.toNat) ∧
      (s.control.IsDeallocated →
        s.control.object.holds = false ∧ s.control.object.accessor.isNone = false)) ∧
    (s.world.threadId argument ≠ .isThreadsafe → ¬ (classes.strategy argument).IsKnownThreadSafe →
      ∀ t, HasAccess (classes.strategy argument) (s.world.threadId argument) t ↔
        s.control.object.accessor = some t) ∧
    s.control.Handling creator ∧
    ∀ act t call control, s.control.step act = some (some (t, call), control) →
      RunsCode (s.world.pools t) = true →
      (s.world.step classes (t, call.act argument)).isSome = true := by
  have htracks := h.tracks
  have howners := htracks.owners
  have hrelinquished := htracks.relinquished
  refine ⟨⟨howners, hrelinquished, fun hcounted => ?_, fun hdeallocated => ?_⟩,
    htracks.hasAccess_iff, htracks.consistent.handling,
    fun act t call control hstep hcode => htracks.isSome_call hstep hcode⟩
  · have hbalanced := htracks.sound.balanced argument hcounted
    rwa [World.Balanced, howners, hrelinquished] at hbalanced
  · obtain ⟨hholds, haccessor⟩ := htracks.consistent.finished hdeallocated
    exact ⟨hholds, by simpa [Option.isNone_eq_false_iff] using haccessor⟩

/-- The new thread has gained access to the object of its function. -/
theorem argument_handled_running : ∃ s : State Bool ℕ,
    s.control.object.accessor = some false ∧
    HasAccess (oneConstant.strategy 1) (s.world.threadId 1) false ∧
    ¬ HasAccess (oneConstant.strategy 1) (s.world.threadId 1) true := by
  have hreachable : ∃ s : State Bool ℕ, s.Reachable oneConstant 1 true ∧
      s.control.object.accessor = some false ∧ s.world.threadId 1 = .thread false := by
    refine ⟨_, ⟨false, fun _ => .isThreadsafe, _, _, _, _, _, true,
      ((RunWhile.refl _).tail (true, .pool .push) (fun h => absurd rfl h) rfl).tail
        (true, .alloc 1 false) trivial rfl, rfl, ?_, rfl,
      ((((((RunWhile.refl _).tail (.control (.mulleStart true false)) ?_ rfl).tail
        (.control .runCaller) ?_ rfl).tail (.control .runCaller) ?_ rfl).tail
        (.control .runCaller) ?_ rfl).tail (.control .runThread) ?_ rfl).tail
        (.control .runThread) ?_ rfl⟩, rfl, rfl⟩
    · exact .inr (.inr rfl)
    · exact .inr (.inr rfl)
    · rintro _ ⟨⟩ _ ⟨⟩
    · rintro _ ⟨⟩ _ ⟨⟩
      trivial
    · rintro _ ⟨⟩ _ ⟨⟩
    · rintro _ ⟨⟩ _ ⟨⟩
      exact fun h => absurd rfl h
    · rintro _ ⟨⟩ _ ⟨⟩
      exact List.cons_ne_nil _ _
  obtain ⟨s, hreachable, haccessor, hid⟩ := hreachable
  obtain ⟨-, haccess, -⟩ := argument_handled hreachable
  have hiff := haccess (by simp [hid]) (by decide)
  refine ⟨s, haccessor, (hiff false).mpr haccessor, fun h => ?_⟩
  have htrue := (hiff true).mp h
  simp [haccessor] at htrue

/-- A thread safe argument is accessible to every thread, from its creation on. -/
theorem threadsafe_argument_shared :
    ¬ ∀ (classes : Classes ℕ) (argument : ℕ) (creator : Bool) (s : State Bool ℕ),
      s.Reachable classes argument creator → ∀ t u,
      HasAccess (classes.strategy argument) (s.world.threadId argument) t →
      HasAccess (classes.strategy argument) (s.world.threadId argument) u → t = u := by
  intro hclaim
  have hreachable : ∃ s : State Bool ℕ, s.Reachable oneConstant 1 true ∧
      s.world.threadId 1 = .isThreadsafe :=
    ⟨_, ⟨false, fun _ => .isThreadsafe, _, _, _, _, _, true,
      (RunWhile.refl _).tail (true, .alloc 1 true) trivial rfl, rfl, .inr (.inl rfl), rfl,
      .refl _⟩, rfl⟩
  obtain ⟨s, hreachable, hid⟩ := hreachable
  have := hclaim oneConstant 1 true s hreachable true false (.inr (.inl hid)) (.inr (.inl hid))
  cases this

end MulleObjC.NSThread
