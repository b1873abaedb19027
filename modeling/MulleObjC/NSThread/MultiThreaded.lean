import Mathlib.Data.Fintype.Basic
import MulleObjC.Library.Machine

/-!
# The multi-threaded flag

A start that finds no other thread sets the flag `_isMultiThreaded`, and a thread that exits and
finds itself alone clears it. Both read `n_threads` before. A new thread increments it when it
runs, not when it is created, and an exiting thread decrements it after it has looked at it, so
that the flag can be wrong when starts and exits overlap.
-/

namespace MulleObjC.NSThread.MultiThreaded

open Machine

/-- Where a thread object and its thread are. -/
inductive Phase
  | unstarted
  /-- `-mulleStart` has read `n_threads` as zero, and calls `__isGoingMultiThreaded`. -/
  | announcing
  /-- In front of `mulle_thread_create`. -/
  | creating
  /-- In `bouncyBounce`, in front of `_mulle_objc_thread_become_universethread`. -/
  | created
  /-- In `-main`. -/
  | main
  /-- `+exit` has read `n_threads` as one, and calls `__isProbablyGoingSingleThreaded`. -/
  | clearing
  /-- In front of `_mulle_objc_thread_resignas_universethread`. -/
  | leaving
  | gone
  deriving DecidableEq, Repr

/-- The thread is in `-main` or on its way to it, and the flag will not be set for it. -/
def Phase.runs : Phase → Bool
  | creating | created | main => true
  | _ => false

/-- The thread has still to look if it is the last one. -/
def Phase.remains : Phase → Bool
  | announcing | creating | created | main | clearing => true
  | _ => false

/-- `info->thread.n_threads`, `ClassStatic._isMultiThreaded` and the threads. -/
structure State (Thread : Type*) where
  nThreads : ℕ
  isMultiThreaded : Bool
  phase : Thread → Phase

/-- What happens next. -/
inductive Act (Thread : Type*)
  /-- `-mulleStart` reads `n_threads`. -/
  | start (t : Thread)
  /-- `__isGoingMultiThreaded` -/
  | goMultiThreaded (t : Thread)
  /-- `mulle_thread_create`, which may fail. -/
  | create (t : Thread) (succeeds : Bool)
  /-- `_mulle_objc_thread_become_universethread` -/
  | become (t : Thread)
  /-- `+exit` reads `n_threads`. -/
  | exit (t : Thread)
  /-- `__isProbablyGoingSingleThreaded` -/
  | goSingleThreaded (t : Thread)
  /-- `_mulle_objc_thread_resignas_universethread` -/
  | resign (t : Thread)

variable {Thread : Type*} [DecidableEq Thread]

namespace State

/-- A thread goes on. -/
def goto (s : State Thread) (t : Thread) (phase : Phase) : State Thread :=
  { s with phase := Function.update s.phase t phase }

/-- One step. -/
def step (s : State Thread) : Act Thread → Option (State Thread)
  | .start t =>
    match s.phase t with
    | .unstarted => some (s.goto t (if s.nThreads = 0 then .announcing else .creating))
    | _ => none
  | .goMultiThreaded t =>
    match s.phase t with
    | .announcing => some ({ s with isMultiThreaded := true }.goto t .creating)
    | _ => none
  | .create t succeeds =>
    match s.phase t with
    | .creating => some (s.goto t (if succeeds then .created else .unstarted))
    | _ => none
  | .become t =>
    match s.phase t with
    | .created => some ({ s with nThreads := s.nThreads + 1 }.goto t .main)
    | _ => none
  | .exit t =>
    match s.phase t with
    | .main => some (s.goto t (if s.nThreads = 1 then .clearing else .leaving))
    | _ => none
  | .goSingleThreaded t =>
    match s.phase t with
    | .clearing => some ({ s with isMultiThreaded := false }.goto t .leaving)
    | _ => none
  | .resign t =>
    match s.phase t with
    | .leaving => some ({ s with nThreads := s.nThreads - 1 }.goto t .gone)
    | _ => none

/-- No thread is started yet. -/
def init (Thread : Type*) : State Thread := ⟨0, false, fun _ => .unstarted⟩

/-- Another thread has still to look if it is the last one. -/
def OtherRemains (s : State Thread) (t : Thread) : Prop :=
  ∃ u, u ≠ t ∧ (s.phase u).remains = true

end State

omit [DecidableEq Thread] in
/-- The flag follows the threads. -/
structure Tracks (s : State Thread) : Prop where
  running : ∀ t, s.phase t = .main → s.isMultiThreaded = true
  finished : (∀ t, s.phase t = .unstarted ∨ s.phase t = .gone) → s.isMultiThreaded = false

/-- Starts and exits do not overlap in a way that the counter does not show. -/
def Orderly (s : State Thread) : Act Thread → Prop
  -- A thread that is still counted has not cleared the flag.
  | .start _ => s.nThreads ≠ 0 → s.isMultiThreaded = true
  -- If a thread is not created, or is not alone when it exits, somebody else is to clear the flag.
  | .create t false => s.isMultiThreaded = true → s.OtherRemains t
  | .exit t => s.nThreads ≠ 1 → s.isMultiThreaded = true → s.OtherRemains t
  -- The flag is not cleared while another thread runs or is about to run.
  | .goSingleThreaded t => ∀ u, u ≠ t → (s.phase u).runs = false
  | _ => True

/-- What a step can do under the condition. -/
inductive Steps (s : State Thread) : State Thread → Prop
  | first {t : Thread} (hphase : s.phase t = .unstarted) : Steps s (s.goto t .announcing)
  | further {t : Thread} (hphase : s.phase t = .unstarted) (hflag : s.isMultiThreaded = true) :
      Steps s (s.goto t .creating)
  | goMultiThreaded {t : Thread} (hphase : s.phase t = .announcing) :
      Steps s ({ s with isMultiThreaded := true }.goto t .creating)
  | created {t : Thread} (hphase : s.phase t = .creating) : Steps s (s.goto t .created)
  | failed {t : Thread} (hphase : s.phase t = .creating)
      (hother : s.isMultiThreaded = true → s.OtherRemains t) : Steps s (s.goto t .unstarted)
  | become {t : Thread} (hphase : s.phase t = .created) :
      Steps s ({ s with nThreads := s.nThreads + 1 }.goto t .main)
  | last {t : Thread} (hphase : s.phase t = .main) : Steps s (s.goto t .clearing)
  | exit {t : Thread} (hphase : s.phase t = .main)
      (hother : s.isMultiThreaded = true → s.OtherRemains t) : Steps s (s.goto t .leaving)
  | goSingleThreaded {t : Thread} (hphase : s.phase t = .clearing)
      (halone : ∀ u, u ≠ t → (s.phase u).runs = false) :
      Steps s ({ s with isMultiThreaded := false }.goto t .leaving)
  | resign {t : Thread} (hphase : s.phase t = .leaving) :
      Steps s ({ s with nThreads := s.nThreads - 1 }.goto t .gone)

/-- The threads that need the flag, and those that make sure that it is cleared. -/
structure Flagged (s : State Thread) : Prop where
  runs : ∀ t, (s.phase t).runs = true → s.isMultiThreaded = true
  remains : s.isMultiThreaded = true → ∃ t, (s.phase t).remains = true

section Step

variable {s s' : State Thread} {a : Act Thread} {t : Thread}

theorem steps_of_step (hcond : Orderly s a) (h : s.step a = some s') : Steps s s' := by
  cases a with
  | start t =>
    simp only [State.step] at h
    split at h
    next hphase =>
      obtain rfl := Option.some.inj h
      split
      next => exact .first hphase
      next hthreads => exact .further hphase (hcond hthreads)
    next => contradiction
  | goMultiThreaded t =>
    simp only [State.step] at h
    split at h
    next hphase =>
      obtain rfl := Option.some.inj h
      exact .goMultiThreaded hphase
    next => contradiction
  | create t succeeds =>
    simp only [State.step] at h
    split at h
    next hphase =>
      obtain rfl := Option.some.inj h
      cases succeeds with
      | true => exact .created hphase
      | false => exact .failed hphase hcond
    next => contradiction
  | become t =>
    simp only [State.step] at h
    split at h
    next hphase =>
      obtain rfl := Option.some.inj h
      exact .become hphase
    next => contradiction
  | exit t =>
    simp only [State.step] at h
    split at h
    next hphase =>
      obtain rfl := Option.some.inj h
      split
      next => exact .last hphase
      next hthreads => exact .exit hphase (hcond hthreads)
    next => contradiction
  | goSingleThreaded t =>
    simp only [State.step] at h
    split at h
    next hphase =>
      obtain rfl := Option.some.inj h
      exact .goSingleThreaded hphase hcond
    next => contradiction
  | resign t =>
    simp only [State.step] at h
    split at h
    next hphase =>
      obtain rfl := Option.some.inj h
      exact .resign hphase
    next => contradiction

/-- A thread goes on to a phase that needs the flag only if it is set, and the flag stays set
only if somebody remains. -/
theorem Flagged.goto (hs : Flagged s) {phase : Phase}
    (hruns : phase.runs = true → s.isMultiThreaded = true)
    (hremains : phase.remains = true ∨ (s.phase t).remains = false ∨
      (s.isMultiThreaded = true → s.OtherRemains t)) : Flagged (s.goto t phase) := by
  constructor
  · intro u hu
    by_cases hut : u = t
    · subst hut
      exact hruns (by simpa [State.goto] using hu)
    · exact hs.runs u (by simpa [State.goto, hut] using hu)
  · intro hflag
    have hstays : ∀ u, u ≠ t → (s.phase u).remains = true →
        ∃ u, ((s.goto t phase).phase u).remains = true := by
      intro u hut hu
      exact ⟨u, by simpa [State.goto, hut] using hu⟩
    rcases hremains with hphase | hold | hother
    · exact ⟨t, by simpa [State.goto] using hphase⟩
    · obtain ⟨u, hu⟩ := hs.remains hflag
      refine hstays u ?_ hu
      rintro rfl
      rw [hold] at hu
      cases hu
    · obtain ⟨u, hut, hu⟩ := hother hflag
      exact hstays u hut hu

theorem flagged_step (hs : Flagged s) (h : Steps s s') : Flagged s' := by
  cases h with
  | first hphase => exact hs.goto (by simp [Phase.runs]) (.inl rfl)
  | further hphase hflag => exact hs.goto (fun _ => hflag) (.inl rfl)
  | @goMultiThreaded t hphase =>
    have hset : Flagged { s with isMultiThreaded := true } :=
      ⟨fun _ _ => rfl, fun _ => ⟨t, by simp [hphase, Phase.remains]⟩⟩
    exact hset.goto (fun _ => rfl) (.inl rfl)
  | @created t hphase =>
    have hflag := hs.runs t (by rw [hphase]; rfl)
    exact hs.goto (fun _ => hflag) (.inl rfl)
  | failed hphase hother => exact hs.goto (by simp [Phase.runs]) (.inr (.inr hother))
  | @become t hphase =>
    have hflag := hs.runs t (by rw [hphase]; rfl)
    have hcounted : Flagged { s with nThreads := s.nThreads + 1 } := ⟨hs.runs, hs.remains⟩
    exact hcounted.goto (fun _ => hflag) (.inl rfl)
  | last hphase => exact hs.goto (by simp [Phase.runs]) (.inl rfl)
  | exit hphase hother => exact hs.goto (by simp [Phase.runs]) (.inr (.inr hother))
  | @goSingleThreaded t hphase halone =>
    refine ⟨fun u hu => ?_, fun hflag => ?_⟩
    · by_cases hut : u = t
      · subst hut
        simp [State.goto, Phase.runs] at hu
      · have hidle := halone u hut
        simp [State.goto, hut, hidle] at hu
    · cases hflag
  | resign hphase =>
    have hcounted : Flagged { s with nThreads := s.nThreads - 1 } := ⟨hs.runs, hs.remains⟩
    exact hcounted.goto (by simp [Phase.runs]) (.inr (.inl (by rw [hphase]; rfl)))

omit [DecidableEq Thread] in
theorem flagged_init : Flagged (State.init Thread) := by
  constructor <;> simp [State.init, Phase.runs]

omit [DecidableEq Thread] in
theorem Flagged.tracks (hs : Flagged s) : Tracks s := by
  constructor
  · intro t hphase
    exact hs.runs t (by rw [hphase]; rfl)
  · intro hfinished
    by_contra hflag
    obtain ⟨t, ht⟩ := hs.remains (by simpa using hflag)
    rcases hfinished t with hphase | hphase <;> simp [hphase, Phase.remains] at ht

/-- In a run in which starts and exits do not overlap badly, the flag is set while a thread is
in `-main`, and not set when all threads have been torn down. -/
theorem tracks_of_run {es : List Empty}
    (hrun : RunWhile (silent State.step) Orderly (State.init Thread) es s) : Tracks s := by
  refine (hrun.invariant Flagged (fun hcond hs hstep => ?_) flagged_init).tracks
  exact flagged_step hs (steps_of_step hcond (silent_eq_some.mp hstep))

end Step

instance [Fintype Thread] (s : State Thread) (t : Thread) : Decidable (s.OtherRemains t) :=
  inferInstanceAs (Decidable (∃ u, u ≠ t ∧ (s.phase u).remains = true))

instance [Fintype Thread] : ∀ (s : State Thread) (a : Act Thread), Decidable (Orderly s a)
  | s, .start _ => inferInstanceAs (Decidable (s.nThreads ≠ 0 → s.isMultiThreaded = true))
  | s, .create t false =>
    inferInstanceAs (Decidable (s.isMultiThreaded = true → s.OtherRemains t))
  | s, .exit t =>
    inferInstanceAs (Decidable (s.nThreads ≠ 1 → s.isMultiThreaded = true → s.OtherRemains t))
  | s, .goSingleThreaded t =>
    inferInstanceAs (Decidable (∀ u, u ≠ t → (s.phase u).runs = false))
  | _, .create _ true | _, .goMultiThreaded _ | _, .become _ | _, .resign _ =>
    inferInstanceAs (Decidable True)

/-- Two threads run at the same time and exit one after the other. -/
theorem two_threads_tracked : ∃ s : State Bool, Tracks s ∧
    (∀ t, s.phase t = .gone) ∧ s.isMultiThreaded = false := by
  have hrun : ∃ es, ∃ s : State Bool,
      RunWhile (silent State.step) Orderly (State.init Bool) es s ∧
        (∀ t, s.phase t = .gone) ∧ s.isMultiThreaded = false :=
    ⟨_, _, runWhile_of_execWhile [.start true, .goMultiThreaded true, .create true true,
      .become true, .start false, .create false true, .become false, .exit true, .resign true,
      .exit false, .goSingleThreaded false, .resign false] rfl, by decide, rfl⟩
  obtain ⟨es, s, hrun, hgone, hflag⟩ := hrun
  exact ⟨s, tracks_of_run hrun, hgone, hflag⟩

/-- A thread is started while another one exits, and two threads exit at the same time. -/
theorem overlapping_exits_not_tracked :
    (∃ es, ∃ s : State Bool, Run (silent State.step) (State.init Bool) es s ∧
      s.phase false = .main ∧ s.isMultiThreaded = false) ∧
    ∃ es, ∃ s : State Bool, Run (silent State.step) (State.init Bool) es s ∧
      (∀ t, s.phase t = .gone) ∧ s.isMultiThreaded = true := by
  refine ⟨⟨_, _, run_of_exec (silent State.step) (State.init Bool) [.start true,
    .goMultiThreaded true, .create true true, .become true, .exit true, .goSingleThreaded true,
    .start false, .create false true, .become false] rfl, rfl, rfl⟩, ?_⟩
  exact ⟨_, _, run_of_exec (silent State.step) (State.init Bool) [.start true,
    .goMultiThreaded true, .create true true, .become true, .start false, .create false true,
    .become false, .exit true, .exit false, .resign true, .resign false] rfl, by decide, rfl⟩

end MulleObjC.NSThread.MultiThreaded
