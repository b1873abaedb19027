import MulleObjC.ConditionLock.Safety

/-!
# The flag of an NSCondition

`-lock`, `-tryLock`, `-wait` and `-unlock` of `NSCondition` write `_mulleIsLocked` beside the
mutex, before they unlock it or after they have locked it. Here each of these writes is a step
of its own, and everybody may look at the flag in between. What the threads do apart from that
is what they do in the machine without a flag.
-/

namespace MulleObjC.ConditionLock

open Machine

/-- What a thread still has to do in a method of `NSCondition`. -/
inductive Pending
  | nothing
  /-- The mutex is locked: `_mulleIsLocked = YES`. -/
  | write
  /-- `_mulleIsLocked = NO` is written: `mulle_thread_mutex_unlock`, also the one that
  `mulle_thread_cond_wait` begins with. -/
  | unlock
  deriving DecidableEq, Repr

/-- The next step locks the mutex, if it can: `mulle_thread_mutex_lock`,
`mulle_thread_mutex_trylock` and the end of `mulle_thread_cond_wait`. -/
def Position.locks : Position → Bool
  | .lock _ _ | .tryLock _ _ | .wakeup _ => true
  | _ => false

/-- The next step is in `-unlock` or `-wait`. -/
def Position.unlocks : Position → Bool
  | .enterWait _ | .tryUnlock _ | .unlock => true
  | _ => false

/-- The end of a wait unlocks nothing. -/
theorem Position.unlocks_woken (p : Position) : p.woken.unlocks = p.unlocks := by
  cases p <;> rfl

/-- Only a thread that has the lock unlocks it. -/
theorem Position.holds_of_unlocks {p : Position} (h : p.unlocks = true) : p.holds = true := by
  cases p with
  | enterWait | tryUnlock | unlock => rfl
  | _ => simp [Position.unlocks] at h

theorem Position.locks_of_unlocks {p : Position} (h : p.unlocks = true) : p.locks = false := by
  cases p with
  | enterWait | tryUnlock | unlock => rfl
  | _ => simp [Position.unlocks] at h

/-- The lock with the flag. -/
structure Flagged (Thread : Type*) where
  lock : State Thread
  mulleIsLocked : Bool
  pending : Thread → Pending

/-- What a thread can do. -/
inductive FlaggedAct (Thread : Type*)
  | lock (a : Act Thread)
  /-- The assignment to `_mulleIsLocked`. -/
  | write
  /-- `-mulleIsLocked` -/
  | mulleIsLocked
  deriving DecidableEq

/-- What is reported. -/
inductive FlaggedEvent (Thread : Type*)
  | lock (e : Event Thread)
  | mulleIsLocked (t : Thread) (flag : Bool)
  deriving DecidableEq

/-- The report, without the flag. -/
def FlaggedEvent.lock? {Thread : Type*} : FlaggedEvent Thread → Option (Event Thread)
  | .lock e => some e
  | .mulleIsLocked _ _ => none

namespace Flagged

variable {Thread : Type*}

/-- `-initWithCondition:` -/
def initWithCondition (value : BitVec 64) : Flagged Thread where
  lock := .initWithCondition value
  mulleIsLocked := false
  pending _ := .nothing

/-- The thread may go on without a write. -/
def ready (s : Flagged Thread) (t : Thread) : Bool :=
  match s.pending t with
  | .nothing => !(s.lock.position t).unlocks
  | .write => false
  | .unlock => true

/-- What the thread has to do when it has gone on. -/
def behind (s : Flagged Thread) (t : Thread) : Pending :=
  if (s.lock.position t).locks = true ∧ s.lock.owner.isNone = true then .write else .nothing

variable [DecidableEq Thread]

/-- A step of a thread. -/
def step (s : Flagged Thread) :
    Thread × FlaggedAct Thread → Option (List (FlaggedEvent Thread) × Flagged Thread)
  | (t, .lock a) =>
    if s.ready t then
      (s.lock.step (t, a)).map fun r =>
        (r.1.map .lock, ⟨r.2, s.mulleIsLocked, Function.update s.pending t (s.behind t)⟩)
    else none
  | (t, .write) =>
    match s.pending t with
    | .nothing =>
      if (s.lock.position t).unlocks then
        some ([], ⟨s.lock, false, Function.update s.pending t .unlock⟩)
      else none
    | .write => some ([], ⟨s.lock, true, Function.update s.pending t .nothing⟩)
    | .unlock => none
  | (t, .mulleIsLocked) =>
    match s.lock.position t, s.pending t with
    | .outside _, .nothing => some ([.mulleIsLocked t s.mulleIsLocked], s)
    | _, _ => none

end Flagged

namespace State

variable {Thread : Type*} [DecidableEq Thread] {s s' : State Thread} {t : Thread}
  {a : Act Thread} {es : List (Event Thread)}

/-- What a step does to the mutex. -/
structure Moves (s : State Thread) (t : Thread) (s' : State Thread) : Prop where
  others : ∀ u, u ≠ t → (s'.Holds u ↔ s.Holds u)
  unlocking : ∀ u, u ≠ t → (s'.position u).unlocks = (s.position u).unlocks
  unlocks : (s.position t).unlocks = true → s.Holds t ∧ s'.owner = none ∧ ¬ s'.Holds t
  locks : (s.position t).locks = true → s.owner = none → s'.owner = some t ∧ s'.Holds t
  keeps : (s.position t).unlocks = false → ((s.position t).locks = true → s.owner ≠ none) →
    s'.owner = s.owner ∧ (s'.Holds t ↔ s.Holds t)

theorem holds_move_self {owner : Option Thread} {p : Position} :
    (s.move t owner p).Holds t ↔ p.holds = true := by
  simp [Holds, State.move]

theorem holds_move_of_ne {owner : Option Thread} {p : Position} {u : Thread} (hu : u ≠ t) :
    (s.move t owner p).Holds u ↔ s.Holds u := by
  simp [Holds, State.move, hu]

theorem Moves.keep {p : Position} (hholds : p.holds = (s.position t).holds)
    (hunlocks : (s.position t).unlocks = false)
    (hlocks : (s.position t).locks = true → s.owner ≠ none) : Moves s t (s.move t s.owner p) where
  others _ hu := holds_move_of_ne hu
  unlocking _ hu := by simp [State.move, hu]
  unlocks h := by simp [hunlocks] at h
  locks h hfree := absurd hfree (hlocks h)
  keeps _ _ := ⟨rfl, by rw [holds_move_self, hholds, Holds]⟩

theorem Moves.take {p : Position} (hholds : p.holds = true) (hfree : s.owner = none)
    (hunlocks : (s.position t).unlocks = false) (hlocks : (s.position t).locks = true) :
    Moves s t (s.move t (some t) p) where
  others _ hu := holds_move_of_ne hu
  unlocking _ hu := by simp [State.move, hu]
  unlocks h := by simp [hunlocks] at h
  locks _ _ := ⟨rfl, holds_move_self.mpr hholds⟩
  keeps _ h := absurd hfree (h hlocks)

theorem Moves.drop {p : Position} (hholds : p.holds = false) (hheld : s.Holds t)
    (hunlocks : (s.position t).unlocks = true) (hlocks : (s.position t).locks = false) :
    Moves s t (s.move t none p) where
  others _ hu := holds_move_of_ne hu
  unlocking _ hu := by simp [State.move, hu]
  unlocks _ := ⟨hheld, rfl, by rw [holds_move_self, hholds]; exact Bool.false_ne_true⟩
  locks h := by simp [hlocks] at h
  keeps h := by simp [hunlocks] at h

/-- A notification of others. -/
theorem Moves.notify {broadcast : Bool} {position : Thread → Position}
    (hpos : s.position t = .notify broadcast)
    (hposition : ∀ u, position u = s.position u ∨ position u = (s.position u).woken) :
    Moves s t { s with position := Function.update position t .unlock } where
  others u hu := by
    rcases hposition u with h | h <;> simp [Holds, hu, h, Position.holds_woken]
  unlocking u hu := by
    rcases hposition u with h | h <;> simp [hu, h, Position.unlocks_woken]
  unlocks h := by simp [hpos, Position.unlocks] at h
  locks h := by simp [hpos, Position.locks] at h
  keeps _ _ := ⟨rfl, by simp [Holds, hpos, Position.holds]⟩

theorem holds_enter {held : Bool} {m : Method} {p : Position} (h : m.enter held = some p) :
    p.holds = held := by
  cases m <;> simp [Method.enter] at h <;> grind [Position.holds]

theorem moves_of_proceed (hstep : s.proceed t = some (es, s')) : Moves s t s' := by
  cases proceeds_of_proceed hstep with
  | lock hpos hfree | tryLock hpos hfree | tryLockTest hpos hfree =>
    exact .take rfl hfree (by simp [hpos, Position.unlocks]) (by simp [hpos, Position.locks])
  | lockTest hpos hfree =>
    rcases hpos with ⟨held, hpos⟩ | hpos
    · exact .take rfl hfree (by simp [hpos, Position.unlocks]) (by simp [hpos, Position.locks])
    · exact .take rfl hfree (by simp [hpos, Position.unlocks]) (by simp [hpos, Position.locks])
  | busy hpos =>
    -- Had the mutex been free, then the try would not have failed.
    have hbusy : s.owner ≠ none := by
      intro hfree
      simp only [State.proceed, hpos, hfree, if_true] at hstep
      split at hstep <;> simp at hstep
    exact .keep (by simp [hpos, Position.holds]) (by simp [hpos, Position.unlocks])
      fun _ => hbusy
  | met hpos | unmet hpos | tryMet hpos | tryUnmet hpos =>
    exact .keep (by simp [hpos, Position.holds]) (by simp [hpos, Position.unlocks])
      (by simp [hpos, Position.locks])
  | @write _ broadcast hpos =>
    have hmoves : Moves s t (s.move t s.owner (.notify broadcast)) :=
      .keep (by simp [hpos, Position.holds]) (by simp [hpos, Position.unlocks])
        (by simp [hpos, Position.locks])
    exact ⟨hmoves.others, hmoves.unlocking, hmoves.unlocks, hmoves.locks, hmoves.keeps⟩
  | broadcast hpos => exact .notify hpos fun _ => .inr rfl
  | wait hpos | tryUnlock hpos | unlock hpos =>
    exact .drop rfl (by simp [hpos, Holds, Position.holds]) (by simp [hpos, Position.unlocks])
      (by simp [hpos, Position.locks])

theorem moves_of_step (hstep : s.step (t, a) = some (es, s')) : Moves s t s' := by
  cases a with
  | call m =>
    cases hpos : s.position t with
    | outside held =>
      simp only [State.step, hpos, Option.map_eq_some_iff, Prod.mk.injEq] at hstep
      obtain ⟨p, henter, -, rfl⟩ := hstep
      refine .keep ?_ ?_ ?_
      · rw [holds_enter henter, hpos, Position.holds]
      · simp [hpos, Position.unlocks]
      · simp [hpos, Position.locks]
    | _ => simp [State.step, hpos] at hstep
  | proceed => exact moves_of_proceed hstep
  | signal picked =>
    cases hpos : s.position t with
    | notify broadcast =>
      cases broadcast with
      | false =>
        simp only [State.step, hpos, Option.some.injEq, Prod.mk.injEq] at hstep
        obtain ⟨-, rfl⟩ := hstep
        refine .notify hpos fun u => ?_
        split
        · exact .inr rfl
        · exact .inl rfl
      | true => simp [State.step, hpos] at hstep
    | _ => simp [State.step, hpos] at hstep
  | spurious =>
    cases hpos : s.position t with
    | wait wanted =>
      simp only [State.step, hpos, Option.some.injEq, Prod.mk.injEq] at hstep
      obtain ⟨-, rfl⟩ := hstep
      refine .keep ?_ ?_ ?_
      · simp [hpos, Position.holds]
      · simp [hpos, Position.unlocks]
      · simp [hpos, Position.locks]
    | _ => simp [State.step, hpos] at hstep

end State

namespace Flagged

variable {Thread : Type*} [DecidableEq Thread] {s s' : Flagged Thread} {t : Thread}
  {a : FlaggedAct Thread} {es : List (FlaggedEvent Thread)}

/-- The mutex belongs to the thread that holds it by its position, and the flag is set while that
thread has nothing to write and no mutex to unlock. -/
structure Sound (s : Flagged Thread) : Prop where
  owner_iff : ∀ t, s.lock.owner = some t ↔ s.lock.Holds t
  flag_iff : s.mulleIsLocked = true ↔ ∃ t, s.lock.Holds t ∧ s.pending t = .nothing
  holds : ∀ t, s.pending t ≠ .nothing → s.lock.Holds t
  unlocks : ∀ t, s.pending t = .unlock → (s.lock.position t).unlocks = true

omit [DecidableEq Thread] in
theorem sound_initWithCondition (value : BitVec 64) :
    (initWithCondition value : Flagged Thread).Sound where
  owner_iff := (State.coherent_initWithCondition value).owner_iff
  flag_iff := by simp [initWithCondition, State.initWithCondition, State.Holds, Position.holds]
  holds := by simp [initWithCondition]
  unlocks := by simp [initWithCondition]

omit [DecidableEq Thread] in
/-- One thread has the lock at a time. -/
theorem Sound.eq_of_holds (h : s.Sound) {u : Thread} (ht : s.lock.Holds t)
    (hu : s.lock.Holds u) : t = u := by
  have howner := (h.owner_iff t).mpr ht
  rw [(h.owner_iff u).mpr hu] at howner
  exact (Option.some.inj howner).symm

/-- A step of the lock that locks nothing and unlocks nothing. -/
theorem Sound.keep (h : s.Sound) {l : State Thread} (hmoves : s.lock.Moves t l)
    (hpending : s.pending t = .nothing) (hunlocks : (s.lock.position t).unlocks = false)
    (hlocks : (s.lock.position t).locks = true → s.lock.owner ≠ none) :
    (⟨l, s.mulleIsLocked, s.pending⟩ : Flagged Thread).Sound := by
  obtain ⟨howner, hself⟩ := hmoves.keeps hunlocks hlocks
  have hholds (u : Thread) : l.Holds u ↔ s.lock.Holds u := by
    by_cases hu : u = t
    · rwa [hu]
    · exact hmoves.others u hu
  refine ⟨fun u => ?_, ?_, fun u hu => ?_, fun u hu => ?_⟩
  · rw [hholds, howner]
    exact h.owner_iff u
  · simpa only [hholds] using h.flag_iff
  · exact (hholds u).mpr (h.holds u hu)
  · have hne : u ≠ t := by
      rintro rfl
      simp [hpending] at hu
    rw [hmoves.unlocking u hne]
    exact h.unlocks u hu

/-- A step that locks the mutex. -/
theorem Sound.take (h : s.Sound) {l : State Thread} (hmoves : s.lock.Moves t l)
    (hlocks : (s.lock.position t).locks = true) (hfree : s.lock.owner = none) :
    (⟨l, s.mulleIsLocked, Function.update s.pending t .write⟩ : Flagged Thread).Sound := by
  obtain ⟨howner, hself⟩ := hmoves.locks hlocks hfree
  have hnobody (u : Thread) : ¬ s.lock.Holds u := by
    rw [← h.owner_iff, hfree]
    simp
  have hholds (u : Thread) : l.Holds u ↔ u = t := by
    by_cases hu : u = t
    · simpa [hu] using hself
    · simpa [hu, hmoves.others u hu] using hnobody u
  have hnothing (u : Thread) : s.pending u = .nothing := by
    by_contra hu
    exact hnobody u (h.holds u hu)
  refine ⟨fun u => ?_, ?_, fun u hu => ?_, fun u hu => ?_⟩
  · rw [hholds, howner, Option.some.injEq, eq_comm]
  · rw [h.flag_iff]
    simp [hholds, hnobody]
  · rw [hholds]
    by_contra hne
    simp [hne, hnothing] at hu
  · by_cases hne : u = t
    · simp [hne] at hu
    · simp [hne, hnothing] at hu

/-- A step that unlocks it. -/
theorem Sound.drop (h : s.Sound) {l : State Thread} (hmoves : s.lock.Moves t l)
    (hpending : s.pending t = .unlock) :
    (⟨l, s.mulleIsLocked, Function.update s.pending t .nothing⟩ : Flagged Thread).Sound := by
  obtain ⟨hheld, howner, hself⟩ := hmoves.unlocks (h.unlocks t hpending)
  have hnobody (u : Thread) : ¬ l.Holds u := by
    by_cases hu : u = t
    · rwa [hu]
    · rw [hmoves.others u hu]
      exact fun hold => hu (h.eq_of_holds hold hheld)
  have hflag : ¬ s.mulleIsLocked = true := by
    rw [h.flag_iff]
    rintro ⟨u, hu, hnothing⟩
    rw [h.eq_of_holds hu hheld, hpending] at hnothing
    cases hnothing
  have hnothing (u : Thread) : Function.update s.pending t .nothing u = .nothing := by
    by_cases hu : u = t
    · simp [hu]
    · by_contra hne
      rw [Function.update_of_ne hu] at hne
      exact hu (h.eq_of_holds (h.holds u hne) hheld)
  refine ⟨fun u => ?_, ?_, fun u hu => absurd (hnothing u) hu, fun u hu => ?_⟩
  · simp [howner, hnobody]
  · simp [hflag, hnobody]
  · simp [hnothing u] at hu

/-- A write of the flag. -/
theorem Sound.write (h : s.Sound) (hheld : s.lock.Holds t) (pending : Pending)
    (hunlock : pending = .unlock → (s.lock.position t).unlocks = true) :
    (⟨s.lock, decide (pending = .nothing), Function.update s.pending t pending⟩ :
      Flagged Thread).Sound := by
  refine ⟨h.owner_iff, ?_, fun u (hu : Function.update s.pending t pending u ≠ .nothing) => ?_,
    fun u (hu : Function.update s.pending t pending u = .unlock) => ?_⟩
  · rw [decide_eq_true_iff]
    constructor
    · rintro rfl
      exact ⟨t, hheld, by simp⟩
    · rintro ⟨u, hu, hnothing⟩
      obtain rfl := h.eq_of_holds hu hheld
      simpa using hnothing
  · by_cases hne : u = t
    · rwa [hne]
    · rw [Function.update_of_ne hne] at hu
      exact h.holds u hu
  · by_cases hne : u = t
    · rw [hne, Function.update_self] at hu
      rw [hne]
      exact hunlock hu
    · rw [Function.update_of_ne hne] at hu
      exact h.unlocks u hu

theorem Sound.step (h : s.Sound) (hstep : s.step (t, a) = some (es, s')) : s'.Sound := by
  cases a with
  | lock a =>
    obtain ⟨hready, hstep⟩ := Option.ite_none_right_eq_some.mp hstep
    obtain ⟨⟨fs, l⟩, hlock, hr⟩ := Option.map_eq_some_iff.mp hstep
    obtain ⟨-, rfl⟩ := Prod.mk.inj hr
    have hmoves := State.moves_of_step hlock
    cases hpending : s.pending t with
    | nothing =>
      have hunlocks : (s.lock.position t).unlocks = false := by
        simpa [ready, hpending] using hready
      by_cases hlocks : (s.lock.position t).locks = true ∧ s.lock.owner.isNone = true
      · rw [behind, if_pos hlocks]
        exact h.take hmoves hlocks.1 (Option.isNone_iff_eq_none.mp hlocks.2)
      · rw [behind, if_neg hlocks, ← hpending, Function.update_eq_self]
        exact h.keep hmoves hpending hunlocks fun hl hfree => hlocks ⟨hl, by simp [hfree]⟩
    | write => simp [ready, hpending] at hready
    | unlock =>
      have hlocks := Position.locks_of_unlocks (h.unlocks t hpending)
      rw [behind, if_neg (by simp [hlocks])]
      exact h.drop hmoves hpending
  | write =>
    cases hpending : s.pending t with
    | nothing =>
      simp only [Flagged.step, hpending] at hstep
      obtain ⟨hunlocks, hr⟩ := Option.ite_none_right_eq_some.mp hstep
      obtain ⟨-, rfl⟩ := Prod.mk.inj (Option.some.inj hr)
      exact h.write (Position.holds_of_unlocks hunlocks) .unlock fun _ => hunlocks
    | write =>
      simp only [Flagged.step, hpending, Option.some.injEq, Prod.mk.injEq] at hstep
      obtain ⟨-, rfl⟩ := hstep
      exact h.write (h.holds t (by simp [hpending])) .nothing (by simp)
    | unlock => simp [Flagged.step, hpending] at hstep
  | mulleIsLocked =>
    simp only [Flagged.step] at hstep
    split at hstep
    · obtain ⟨-, rfl⟩ := Prod.mk.inj (Option.some.inj hstep)
      exact h
    · cases hstep

/-- Without the flag the steps are those of the lock, and writes and questions are not seen. -/
theorem lock_of_step (hstep : s.step (t, a) = some (es, s')) :
    (es.filterMap FlaggedEvent.lock? = [] ∧ s'.lock = s.lock) ∨
      ∃ b, a = .lock b ∧
        s.lock.step (t, b) = some (es.filterMap FlaggedEvent.lock?, s'.lock) := by
  cases a with
  | lock b =>
    obtain ⟨-, hstep⟩ := Option.ite_none_right_eq_some.mp hstep
    obtain ⟨⟨fs, l⟩, hlock, hr⟩ := Option.map_eq_some_iff.mp hstep
    obtain ⟨rfl, rfl⟩ := Prod.mk.inj hr
    have hevents : (fs.map FlaggedEvent.lock).filterMap FlaggedEvent.lock? = fs := by
      rw [List.filterMap_map]
      exact List.filterMap_some
    exact .inr ⟨b, rfl, by rw [hevents]; exact hlock⟩
  | write =>
    simp only [Flagged.step] at hstep
    split at hstep
    · obtain ⟨-, hr⟩ := Option.ite_none_right_eq_some.mp hstep
      obtain ⟨rfl, rfl⟩ := Prod.mk.inj (Option.some.inj hr)
      exact .inl ⟨rfl, rfl⟩
    · obtain ⟨rfl, rfl⟩ := Prod.mk.inj (Option.some.inj hstep)
      exact .inl ⟨rfl, rfl⟩
    · cases hstep
  | mulleIsLocked =>
    simp only [Flagged.step] at hstep
    split at hstep
    · obtain ⟨rfl, rfl⟩ := Prod.mk.inj (Option.some.inj hstep)
      exact .inl ⟨rfl, rfl⟩
    · cases hstep

/-- What the lock does meets a condition. -/
def Meets (cond : Thread × Act Thread → Prop) : Thread × FlaggedAct Thread → Prop
  | (t, .lock a) => cond (t, a)
  | _ => True

/-- A run is a run of the lock. -/
theorem lock_of_run {cond : Thread × Act Thread → Prop} {value : BitVec 64}
    (hrun : RunWhile step (fun _ a => Meets cond a) (initWithCondition value) es s) :
    RunWhile State.step (fun _ a => cond a) (.initWithCondition value)
      (es.filterMap FlaggedEvent.lock?) s.lock := by
  refine hrun.invariant_trace (fun es s => RunWhile State.step (fun _ a => cond a)
    (.initWithCondition value) (es.filterMap FlaggedEvent.lock?) s.lock) ?_ (.refl _)
  intro s ⟨t, a⟩ es fs s' hcond hlock hstep
  rw [List.filterMap_append]
  rcases lock_of_step hstep with ⟨hnone, hsame⟩ | ⟨b, rfl, hb⟩
  · rwa [hnone, List.append_nil, hsame]
  · exact hlock.tail (t, b) hcond hb

theorem sound_of_run {cond : Thread × Act Thread → Prop} {value : BitVec 64}
    (hrun : RunWhile step (fun _ a => Meets cond a) (initWithCondition value) es s) : s.Sound :=
  hrun.invariant Sound (fun _ h hstep => h.step hstep) (sound_initWithCondition value)

/-- What `_mulleIsLocked` tells. -/
structure Tells (value : BitVec 64) (es : List (FlaggedEvent Thread)) (s : Flagged Thread) :
    Prop where
  /-- The writes change nothing else. -/
  run : Run State.step (.initWithCondition value) (es.filterMap FlaggedEvent.lock?) s.lock
  exclusive : ∀ t u, s.lock.Holds t → s.lock.Holds u → t = u
  /-- Nobody is told of a lock that is free. -/
  locked : s.mulleIsLocked = true → ∃ t, s.lock.owner = some t ∧ s.lock.Holds t
  /-- Whoever has the lock and is not in a method of it finds it locked. -/
  outside : ∀ t, s.lock.position t = .outside true → s.pending t = .nothing →
    s.mulleIsLocked = true
  /-- Nobody is told of a free lock unless a thread is about to lock or to unlock it. -/
  free : s.mulleIsLocked = false →
    s.lock.owner = none ∨ ∃ t, s.lock.owner = some t ∧ s.pending t ≠ .nothing

/-- In every run of any number of threads, with broadcasts, signals and spurious wakeups. -/
theorem tells_of_run {value : BitVec 64} (hrun : Run step (initWithCondition value) es s) :
    Tells value es s := by
  have hsame : (fun (_ : Flagged Thread) (a : Thread × FlaggedAct Thread) =>
      Meets (fun _ => True) a) = fun _ _ => True := by
    funext _ ⟨t, a⟩
    cases a <;> rfl
  rw [Run, ← hsame] at hrun
  have hsound := sound_of_run hrun
  refine ⟨lock_of_run hrun, fun t u => hsound.eq_of_holds, fun hflag => ?_,
    fun t hpos hpending => ?_, fun hflag => ?_⟩
  · obtain ⟨t, hheld, -⟩ := hsound.flag_iff.mp hflag
    exact ⟨t, (hsound.owner_iff t).mpr hheld, hheld⟩
  · exact hsound.flag_iff.mpr ⟨t, by simp [State.Holds, hpos, Position.holds], hpending⟩
  · cases howner : s.lock.owner with
    | none => exact .inl rfl
    | some t =>
      refine .inr ⟨t, rfl, fun hpending => ?_⟩
      have hset := hsound.flag_iff.mpr ⟨t, (hsound.owner_iff t).mp howner, hpending⟩
      rw [hflag] at hset
      cases hset

/-- A thread asks while another one is about to write that the mutex is locked. -/
theorem tells_of_run_lock : ∃ (es : List (FlaggedEvent Bool)) (s : Flagged Bool),
    (s.lock.owner = some true ∧ es = [.lock (.locked true .any), .mulleIsLocked false false]) ∧
      Tells 0 es s := by
  have hrun : Run step (initWithCondition 0) _ _ :=
    run_of_exec step (initWithCondition 0)
      [(true, .lock (.call .lock)), (true, .lock .proceed), (false, .mulleIsLocked)] rfl
  exact ⟨_, _, ⟨rfl, rfl⟩, tells_of_run hrun⟩

/-- No thread goes on by itself. -/
def Stuck (s : Flagged Thread) : Prop :=
  ∀ t, s.step (t, .lock .proceed) = none ∧ s.step (t, .write) = none

/-- Why a thread does not go on. -/
inductive Waits (s : Flagged Thread) (t : Thread) : Prop
  /-- It is in no method. -/
  | outside (held : Bool) (hpos : s.lock.position t = .outside held)
  /-- It waits for a condition that is not met. -/
  | condition (wanted : Wanted) (hpos : s.lock.position t = .wait wanted)
    (hunmet : wanted.met s.lock.currentCondition = false)
  /-- It waits for the mutex, whose owner is in no method or has called `-lock` again. -/
  | mutex (u : Thread) (hpos : (s.lock.position t).locks = true) (howner : s.lock.owner = some u)
    (hmethod : s.lock.position u = .outside true ∨ ∃ wanted, s.lock.position u = .lock true wanted)

end Flagged

namespace State

variable {Thread : Type*} [DecidableEq Thread] {s : State Thread} {t : Thread}

/-- A thread that unlocks is not held up. -/
theorem proceed_of_unlocks (h : (s.position t).unlocks = true) : s.proceed t ≠ none := by
  cases hpos : s.position t with
  | enterWait | tryUnlock | unlock => simp [State.proceed, hpos]
  | _ => simp [hpos, Position.unlocks] at h

/-- The positions in which a thread is held up. -/
inductive HeldUp (s : State Thread) (t : Thread) : Prop
  | outside (held : Bool) (hpos : s.position t = .outside held)
  | wait (wanted : Wanted) (hpos : s.position t = .wait wanted)
  | notify (hpos : s.position t = .notify false)
  | lock (held : Bool) (wanted : Wanted) (hpos : s.position t = .lock held wanted)
    (hbusy : s.owner ≠ none)
  | wakeup (wanted : Wanted) (hpos : s.position t = .wakeup wanted) (hbusy : s.owner ≠ none)

theorem heldUp_of_proceed (h : s.proceed t = none) : HeldUp s t := by
  cases hpos : s.position t with
  | outside held => exact .outside held hpos
  | lock held wanted =>
    refine .lock held wanted hpos fun hfree => ?_
    cases wanted <;> simp [State.proceed, hpos, hfree] at h
  | wait wanted => exact .wait wanted hpos
  | wakeup wanted =>
    refine .wakeup wanted hpos fun hfree => ?_
    simp [State.proceed, hpos, hfree] at h
  | notify broadcast =>
    cases broadcast with
    | false => exact .notify hpos
    | true => simp [State.proceed, hpos] at h
  | tryLock held wanted =>
    simp only [State.proceed, hpos] at h
    split at h
    · split at h <;> cases h
    · cases h
  | test | tryTest =>
    simp only [State.proceed, hpos] at h
    split at h <;> cases h
  | enterWait | tryUnlock | write | unlock => simp [State.proceed, hpos] at h

end State

namespace Flagged

variable {Thread : Type*} [DecidableEq Thread] {s : Flagged Thread} {t : Thread}
  {es : List (FlaggedEvent Thread)}

/-- Writes of the flag hold nobody up. -/
theorem heldUp_of_stuck (h : s.Sound) (hstuck : s.Stuck) :
    s.pending t = .nothing ∧ s.lock.HeldUp t := by
  obtain ⟨hproceed, hwrite⟩ := hstuck t
  cases hpending : s.pending t with
  | nothing =>
    have hunlocks : (s.lock.position t).unlocks = false := by
      simpa [Flagged.step, hpending] using hwrite
    have hlock : s.lock.proceed t = none := by
      simpa [Flagged.step, ready, hpending, hunlocks, State.step] using hproceed
    exact ⟨rfl, State.heldUp_of_proceed hlock⟩
  | write => simp [Flagged.step, hpending] at hwrite
  | unlock =>
    have hlock : s.lock.proceed t = none := by
      simpa [Flagged.step, ready, hpending, State.step] using hproceed
    exact absurd hlock (State.proceed_of_unlocks (h.unlocks t hpending))

omit [DecidableEq Thread] in
/-- The owner of a mutex that somebody waits for. -/
theorem mutex_of_heldUp (h : s.Sound) (hheldUp : ∀ t, s.lock.HeldUp t)
    (hcoherent : s.lock.Coherent) (hpos : (s.lock.position t).locks = true)
    (hbusy : s.lock.owner ≠ none) : s.Waits t := by
  obtain ⟨u, howner⟩ := Option.ne_none_iff_exists'.mp hbusy
  refine .mutex u hpos howner ?_
  have hheld : (s.lock.position u).holds = true := (h.owner_iff u).mp howner
  cases hheldUp u with
  | outside held hu =>
    rw [hu] at hheld
    obtain rfl : held = true := hheld
    exact .inl hu
  | lock held wanted hu =>
    rw [hu] at hheld
    obtain rfl : held = true := hheld
    exact .inr ⟨wanted, hu⟩
  | wait wanted hu | wakeup wanted hu => simp [hu, Position.holds] at hheld
  | notify hu =>
    have hsound := hcoherent.sound u
    simp [hu, Position.Sound] at hsound

/-- If no thread goes on by itself in a run in which every notification is a broadcast, then each
thread is in no method, or waits for a condition that is not met, or waits for a thread that has
the lock and that is in no method or has called `-lock` again. -/
theorem waits_of_stuck {value : BitVec 64}
    (hrun : RunWhile step (fun _ a => Meets Broadcasts a) (initWithCondition value) es s)
    (hstuck : s.Stuck) (t : Thread) : s.pending t = .nothing ∧ s.Waits t := by
  have hsound := sound_of_run hrun
  have hcoherent := State.coherent_of_run (lock_of_run hrun)
  have hheldUp (u : Thread) : s.lock.HeldUp u := (heldUp_of_stuck hsound hstuck).2
  obtain ⟨hpending, ht⟩ := heldUp_of_stuck (t := t) hsound hstuck
  refine ⟨hpending, ?_⟩
  cases ht with
  | outside held hpos => exact .outside held hpos
  | wait wanted hpos =>
    -- Had the condition been met, then the thread that wrote it could still broadcast.
    refine .condition wanted hpos ?_
    by_contra hmet
    obtain ⟨u, hu⟩ := hcoherent.wait t wanted hpos (by simpa using hmet)
    cases hheldUp u with
    | notify hpos' => simp [hu] at hpos'
    | outside _ hpos' | wait _ hpos' | lock _ _ hpos' | wakeup _ hpos' => simp [hu] at hpos'
  | notify hpos =>
    have hbroadcast := hcoherent.sound t
    simp [hpos, Position.Sound] at hbroadcast
  | lock held wanted hpos hbusy =>
    exact mutex_of_heldUp hsound hheldUp hcoherent (by simp [hpos, Position.locks]) hbusy
  | wakeup wanted hpos hbusy =>
    exact mutex_of_heldUp hsound hheldUp hcoherent (by simp [hpos, Position.locks]) hbusy

instance (s : Flagged (Fin 3)) : Decidable s.Stuck := by
  unfold Stuck
  infer_instance

/-- A thread waits for a condition, one for the mutex, and a third one has it. -/
theorem waits_of_stuck_three : ∃ s : Flagged (Fin 3),
    s.lock.owner = some 2 ∧ s.Stuck ∧ ∀ t, s.pending t = .nothing ∧ s.Waits t := by
  have h : (exec step (initWithCondition 0 : Flagged (Fin 3))
      [(0, .lock (.call (.lockWhenCondition 1))), (0, .lock .proceed), (0, .write),
        (0, .lock .proceed), (0, .write), (0, .lock .proceed), (2, .lock (.call .lock)),
        (2, .lock .proceed), (2, .write), (1, .lock (.call (.lockWhenCondition 2)))]).map
          (fun r => (r.2.lock.owner, decide r.2.Stuck)) = some (some 2, true) := by
    decide +kernel
  obtain ⟨⟨es, s⟩, hexec, hr⟩ := Option.map_eq_some_iff.mp h
  obtain ⟨howner, hstuck⟩ := Prod.mk.inj hr
  have hrun : RunWhile step (fun _ a => Meets Broadcasts a) (initWithCondition 0) es s :=
    runWhile_of_exec _ (by simp [Meets, Broadcasts]) hexec
  exact ⟨s, howner, of_decide_eq_true hstuck, waits_of_stuck hrun (of_decide_eq_true hstuck)⟩

end Flagged

end MulleObjC.ConditionLock
