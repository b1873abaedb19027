import Mathlib.Data.List.Count
import Mathlib.Data.List.Perm.Basic
import Mathlib.Logic.Function.Iterate

/-!
# The finalizers of a thread

A thread object retains its finalizers. When they are run, the list is emptied first and started
anew, so that a finalizer can add and remove others while it runs. This is repeated until no
finalizer was added. Every reference is given up once, by a removal or behind the turn of the
finalizer.
-/

namespace MulleObjC.NSThread.Finalizers

/-- `mulle__pointerarray`, as far as the order of its pointers and their removal goes. -/
structure PointerArray (Obj : Type*) where
  /-- `_mulle__pointerarray_remove_unique`: the other pointers, and the one that was removed. -/
  removeUnique : List Obj → Obj → List Obj × Option Obj
  of_mem : ∀ ps o, o ∈ ps → (removeUnique ps o).2 = some o ∧
    (removeUnique ps o).1.Sublist ps ∧ (o :: (removeUnique ps o).1).Perm ps
  of_notMem : ∀ ps o, o ∉ ps → removeUnique ps o = (ps, none)

/-- What is reported. -/
inductive Event (Obj : Type*)
  /-- Retained and added. -/
  | retained (o : Obj)
  /-- Removed in front of its turn. -/
  | removed (o : Obj)
  /-- `-mullePerformFinalize` -/
  | performed (o : Obj)
  | autoreleased (o : Obj)
  deriving DecidableEq

/-- A message to the thread object. -/
inductive Call (Obj : Type*)
  /-- `-mulleAddFinalizer:` -/
  | add (o : Obj)
  /-- `-mulleRemoveFinalizer:` -/
  | remove (o : Obj)
  deriving DecidableEq

/-- The thread object, everything that finalizers depend on and what happened so far. -/
structure State (Obj World : Type*) where
  finalizers : List Obj := []
  world : World
  events : List (Event Obj) := []

/-- The messages that the `-finalize` of an object sends to the thread object. They may depend on
everything. -/
abbrev Finalize (Obj World : Type*) := Obj → World → List (Call Obj) × World

variable {Obj World : Type*}

namespace State

/-- `-mulleAddFinalizer:` or `-mulleRemoveFinalizer:` -/
def call (array : PointerArray Obj) (s : State Obj World) : Call Obj → State Obj World
  | .add o =>
    { s with finalizers := s.finalizers ++ [o], events := s.events ++ [.retained o] }
  | .remove o =>
    match array.removeUnique s.finalizers o with
    | (ps, some p) =>
      { s with finalizers := ps, events := s.events ++ [.removed p] ++ [.autoreleased p] }
    | (ps, none) => { s with finalizers := ps }

/-- Some messages, one after the other. -/
def calls (array : PointerArray Obj) (s : State Obj World) (cs : List (Call Obj)) :
    State Obj World :=
  cs.foldl (call array) s

variable (array : PointerArray Obj) (finalize : Finalize Obj World)

/-- `[obj mullePerformFinalize]` -/
def performFinalize (s : State Obj World) (o : Obj) : State Obj World :=
  let r := finalize o s.world
  calls array { s with world := r.2, events := s.events ++ [.performed o] } r.1

/-- `[obj mullePerformFinalize]` and `[obj autorelease]` -/
def turn (s : State Obj World) (o : Obj) : State Obj World :=
  let s := s.performFinalize array finalize o
  { s with events := s.events ++ [.autoreleased o] }

/-- The body of the `while` loop. The finalizers so far have their turns. -/
def round (s : State Obj World) : State Obj World :=
  s.finalizers.foldl (turn array finalize) { s with finalizers := [] }

/-- `-_mulleRunFinalizers`, if the `while` loop ends within `fuel` tests. -/
def runFinalizers : ℕ → State Obj World → Option (State Obj World)
  | 0, _ => none
  | fuel + 1, s =>
    if s.finalizers.length = 0 then some s else runFinalizers fuel (s.round array finalize)

end State

namespace Event

variable (q : Obj → Bool)

/-- An object was retained and added. -/
def retains : Event Obj → Bool
  | .retained o => q o
  | _ => false

/-- An object was removed. -/
def removes : Event Obj → Bool
  | .removed o => q o
  | _ => false

/-- An object has had its turn. -/
def performs : Event Obj → Bool
  | .performed o => q o
  | _ => false

/-- An object was autoreleased. -/
def autoreleases : Event Obj → Bool
  | .autoreleased o => q o
  | _ => false

end Event

/-- All finalizers were accounted for. -/
structure Settled [DecidableEq Obj] (s : State Obj World) : Prop where
  finalizers : s.finalizers = []
  /-- Every finalizer that was added has had its turn, or was removed before. -/
  performed : ∀ o, s.events.count (.performed o) + s.events.count (.removed o) =
    s.events.count (.retained o)
  /-- Its reference was given up. -/
  autoreleased : ∀ o, s.events.count (.autoreleased o) = s.events.count (.retained o)
  /-- At no time is a reference given up that is not held. -/
  covered : ∀ es, es <+: s.events → ∀ o,
    es.count (.autoreleased o) ≤ es.count (.retained o)

/-- The finalizers run once. -/
def RunOnce [DecidableEq Obj] (array : PointerArray Obj) (finalize : Finalize Obj World)
    (s : State Obj World) : Prop :=
  (∀ fuel s', s.runFinalizers array finalize fuel = some s' → Settled s') ∧
    -- The loop ends if the finalizers add only so many others.
    ((∃ bound, ∀ n, ((State.round array finalize)^[n] s).events.countP
      (Event.retains fun _ => true) ≤ bound) →
      ∃ fuel s', s.runFinalizers array finalize fuel = some s')

/-- The references of the finalizers in the list, of those that wait for their turn and of those
that are not autoreleased yet. -/
structure Books (s : State Obj World) (waiting unreleased : List Obj) : Prop where
  performed : ∀ q : Obj → Bool, s.events.countP (Event.retains q) =
    s.events.countP (Event.removes q) + s.events.countP (Event.performs q) +
      s.finalizers.countP q + waiting.countP q
  autoreleased : ∀ q : Obj → Bool, s.events.countP (Event.retains q) =
    s.events.countP (Event.autoreleases q) + s.finalizers.countP q + unreleased.countP q
  covered : ∀ es, es <+: s.events → ∀ q : Obj → Bool,
    es.countP (Event.autoreleases q) ≤ es.countP (Event.retains q)

section Books

variable {array : PointerArray Obj} {finalize : Finalize Obj World} {s s' : State Obj World}
  {o : Obj} {ps waiting unreleased : List Obj}

theorem countP_concat {α : Type*} (p : α → Bool) (as : List α) (a : α) :
    (as ++ [a]).countP p = as.countP p + (p a).toNat := by
  cases ha : p a <;> simp [ha]

theorem countP_cons_toNat {α : Type*} (p : α → Bool) (a : α) (as : List α) :
    (a :: as).countP p = as.countP p + (p a).toNat := by
  cases ha : p a <;> simp [ha]

/-- One more event. -/
theorem covered_append {es : List (Event Obj)} {e : Event Obj}
    (hes : ∀ fs, fs <+: es → ∀ q : Obj → Bool,
      fs.countP (Event.autoreleases q) ≤ fs.countP (Event.retains q))
    (he : ∀ q : Obj → Bool, (es ++ [e]).countP (Event.autoreleases q) ≤
      (es ++ [e]).countP (Event.retains q)) :
    ∀ fs, fs <+: es ++ [e] → ∀ q : Obj → Bool,
      fs.countP (Event.autoreleases q) ≤ fs.countP (Event.retains q) := by
  intro fs hfs q
  rcases List.prefix_concat_iff.mp hfs with rfl | hfs
  · exact he q
  · exact hes fs hfs q

theorem Books.add (hs : Books s waiting unreleased) (o : Obj) :
    Books (s.call array (.add o)) waiting unreleased := by
  refine ⟨fun q => ?_, fun q => ?_, covered_append hs.covered fun q => ?_⟩
  · have h := hs.performed q
    simp only [State.call, countP_concat, Event.retains, Event.removes, Event.performs,
      Bool.toNat_false]
    omega
  · have h := hs.autoreleased q
    simp only [State.call, countP_concat, Event.retains, Event.autoreleases, Bool.toNat_false]
    omega
  · have h := hs.autoreleased q
    simp only [countP_concat, Event.retains, Event.autoreleases, Bool.toNat_false]
    omega

theorem Books.remove (hs : Books s waiting unreleased) (o : Obj) :
    Books (s.call array (.remove o)) waiting unreleased := by
  by_cases ho : o ∈ s.finalizers
  · obtain ⟨hremoved, -, hperm⟩ := array.of_mem s.finalizers o ho
    obtain ⟨ps, hps⟩ : ∃ ps, array.removeUnique s.finalizers o = (ps, some o) :=
      ⟨_, Prod.ext rfl hremoved⟩
    rw [hps] at hperm
    have hcall : s.call array (.remove o) = { s with
        finalizers := ps
        events := s.events ++ [.removed o] ++ [.autoreleased o] } := by
      simp only [State.call, hps]
    have hcount : ∀ q : Obj → Bool, ps.countP q + (q o).toNat = s.finalizers.countP q := by
      intro q
      rw [← hperm.countP_eq, countP_cons_toNat]
    rw [hcall]
    refine ⟨fun q => ?_, fun q => ?_,
      covered_append (covered_append hs.covered fun q => ?_) fun q => ?_⟩
    · have h := hs.performed q
      have hq := hcount q
      simp only [countP_concat, Event.retains, Event.removes, Event.performs, Bool.toNat_false]
      omega
    · have h := hs.autoreleased q
      have hq := hcount q
      simp only [countP_concat, Event.retains, Event.autoreleases, Bool.toNat_false]
      omega
    · have h := hs.autoreleased q
      simp only [countP_concat, Event.retains, Event.autoreleases, Bool.toNat_false]
      omega
    · -- The reference was that of the place in the list.
      have h := hs.autoreleased q
      have hq := hcount q
      simp only [countP_concat, Event.retains, Event.autoreleases, Bool.toNat_false]
      omega
  · have hcall : s.call array (.remove o) = s := by
      simp only [State.call, array.of_notMem s.finalizers o ho]
    rw [hcall]
    exact hs

theorem Books.calls (hs : Books s waiting unreleased) (cs : List (Call Obj)) :
    Books (s.calls array cs) waiting unreleased := by
  induction cs generalizing s with
  | nil => exact hs
  | cons c cs ih =>
    cases c with
    | add o => exact ih (hs.add o)
    | remove o => exact ih (hs.remove o)

/-- A finalizer has its turn. Whatever it does to the list, its own reference is left. -/
theorem Books.turn (hs : Books s (o :: waiting) (o :: waiting)) :
    Books (s.turn array finalize o) waiting waiting := by
  have hperformed : Books { s with
      world := (finalize o s.world).2
      events := s.events ++ [.performed o] } waiting (o :: waiting) := by
    refine ⟨fun q => ?_, fun q => ?_, covered_append hs.covered fun q => ?_⟩
    · have h := hs.performed q
      simp only [countP_concat, countP_cons_toNat, Event.retains, Event.removes, Event.performs,
        Bool.toNat_false] at h ⊢
      omega
    · have h := hs.autoreleased q
      simpa only [countP_concat, Event.retains, Event.autoreleases, Bool.toNat_false,
        Nat.add_zero] using h
    · have h := hs.autoreleased q
      simp only [countP_concat, Event.retains, Event.autoreleases, Bool.toNat_false]
      omega
  have hcalls : Books (s.performFinalize array finalize o) waiting (o :: waiting) :=
    hperformed.calls (finalize o s.world).1
  refine ⟨fun q => ?_, fun q => ?_, covered_append hcalls.covered fun q => ?_⟩
  · have h := hcalls.performed q
    simpa only [State.turn, countP_concat, Event.retains, Event.removes, Event.performs,
      Bool.toNat_false, Nat.add_zero] using h
  · have h := hcalls.autoreleased q
    simp only [State.turn, countP_concat, countP_cons_toNat, Event.retains,
      Event.autoreleases, Bool.toNat_false] at h ⊢
    omega
  · have h := hcalls.autoreleased q
    simp only [countP_concat, countP_cons_toNat, Event.retains, Event.autoreleases,
      Bool.toNat_false] at h ⊢
    omega

theorem Books.turns (hs : Books s ps ps) :
    Books (ps.foldl (State.turn array finalize) s) [] [] := by
  induction ps generalizing s with
  | nil => exact hs
  | cons o ps ih => exact ih hs.turn

/-- Emptying the list makes all finalizers wait for their turn. -/
theorem Books.round (hs : Books s [] []) : Books (s.round array finalize) [] [] := by
  apply Books.turns
  refine ⟨fun q => ?_, fun q => ?_, hs.covered⟩
  · have h := hs.performed q
    simp at h ⊢
    omega
  · have h := hs.autoreleased q
    simp at h ⊢
    omega

theorem Books.iterate (hs : Books s [] []) (n : ℕ) :
    Books ((State.round array finalize)^[n] s) [] [] := by
  induction n generalizing s with
  | zero => exact hs
  | succ n ih => exact ih hs.round

theorem books_of_run {fuel : ℕ} (hs : Books s [] [])
    (h : s.runFinalizers array finalize fuel = some s') :
    s'.finalizers = [] ∧ Books s' [] [] := by
  induction fuel generalizing s with
  | zero => cases h
  | succ fuel ih =>
    rw [State.runFinalizers] at h
    split at h
    · rename_i hempty
      obtain rfl := Option.some.inj h
      exact ⟨List.length_eq_zero_iff.mp hempty, hs⟩
    · exact ih hs.round h

end Books

section End

variable {array : PointerArray Obj} {finalize : Finalize Obj World} {s s' : State Obj World}

theorem books_init (w : World) : Books ({ world := w } : State Obj World) [] [] := by
  refine ⟨fun _ => rfl, fun _ => rfl, fun es hes q => ?_⟩
  obtain rfl := List.prefix_nil.mp hes
  exact Nat.le_refl 0

/-- With an empty list the books are settled. -/
theorem Books.settled [DecidableEq Obj] (hs : Books s [] []) (hempty : s.finalizers = []) :
    Settled s := by
  have hretained : ∀ (es : List (Event Obj)) (o : Obj),
      es.countP (Event.retains (· = o)) = es.count (.retained o) := by
    intro es o
    exact List.countP_congr fun e _ => by cases e <;> simp [Event.retains]
  have hremoved : ∀ (es : List (Event Obj)) (o : Obj),
      es.countP (Event.removes (· = o)) = es.count (.removed o) := by
    intro es o
    exact List.countP_congr fun e _ => by cases e <;> simp [Event.removes]
  have hperformed : ∀ (es : List (Event Obj)) (o : Obj),
      es.countP (Event.performs (· = o)) = es.count (.performed o) := by
    intro es o
    exact List.countP_congr fun e _ => by cases e <;> simp [Event.performs]
  have hautoreleased : ∀ (es : List (Event Obj)) (o : Obj),
      es.countP (Event.autoreleases (· = o)) = es.count (.autoreleased o) := by
    intro es o
    exact List.countP_congr fun e _ => by cases e <;> simp [Event.autoreleases]
  refine ⟨hempty, fun o => ?_, fun o => ?_, fun es hes o => ?_⟩
  · have h := hs.performed (· = o)
    rw [hempty, hretained, hremoved, hperformed] at h
    simp at h
    omega
  · have h := hs.autoreleased (· = o)
    rw [hempty, hretained, hautoreleased] at h
    simp at h
    omega
  · rw [← hautoreleased, ← hretained]
    exact hs.covered es hes _

/-- Messages to the thread object perform nothing. -/
theorem performs_calls (cs : List (Call Obj)) (s : State Obj World) (q : Obj → Bool) :
    (s.calls array cs).events.countP (Event.performs q) =
      s.events.countP (Event.performs q) := by
  induction cs generalizing s with
  | nil => rfl
  | cons c cs ih =>
    refine (ih (s.call array c)).trans ?_
    cases c with
    | add o => simp [State.call, Event.performs]
    | remove o =>
      simp only [State.call]
      split <;> simp [Event.performs]

/-- Every finalizer in the list has a turn. -/
theorem performs_turns (ps : List Obj) (s : State Obj World) :
    (ps.foldl (State.turn array finalize) s).events.countP (Event.performs fun _ => true) =
      s.events.countP (Event.performs fun _ => true) + ps.length := by
  induction ps generalizing s with
  | nil => rfl
  | cons o ps ih =>
    rw [List.foldl_cons, ih, List.length_cons]
    have hturn : (s.turn array finalize o).events.countP (Event.performs fun _ => true) =
        s.events.countP (Event.performs fun _ => true) + 1 := by
      simp only [State.turn, State.performFinalize, countP_concat, performs_calls,
        Event.performs, Bool.toNat_false, Bool.toNat_true, Nat.add_zero]
    omega

/-- As long as the list is not empty, every round performs a finalizer. -/
theorem performs_iterate (s : State Obj World) (n : ℕ) :
    (∃ k ≤ n, ((State.round array finalize)^[k] s).finalizers = []) ∨
      n ≤ ((State.round array finalize)^[n] s).events.countP
        (Event.performs fun _ => true) := by
  induction n with
  | zero => exact .inr (Nat.zero_le _)
  | succ n ih =>
    rcases ih with ⟨k, hk, hempty⟩ | hn
    · exact .inl ⟨k, Nat.le_succ_of_le hk, hempty⟩
    · by_cases hempty : ((State.round array finalize)^[n] s).finalizers = []
      · exact .inl ⟨n, Nat.le_succ n, hempty⟩
      · have hpos := List.length_pos_iff.mpr hempty
        refine .inr ?_
        rw [Function.iterate_succ_apply', State.round, performs_turns]
        simp only
        omega

/-- The loop ends in front of the first round with an empty list. -/
theorem exists_run_of_empty {n : ℕ}
    (hempty : ((State.round array finalize)^[n] s).finalizers = []) :
    ∃ fuel s', s.runFinalizers array finalize fuel = some s' := by
  induction n generalizing s with
  | zero => exact ⟨1, s, if_pos (List.length_eq_zero_iff.mpr hempty)⟩
  | succ n ih =>
    obtain ⟨fuel, s', hrun⟩ := ih hempty
    by_cases hdone : s.finalizers.length = 0
    · exact ⟨1, s, if_pos hdone⟩
    · exact ⟨fuel + 1, s', (if_neg hdone).trans hrun⟩

/-- If the finalizers add only so many others, the loop ends. -/
theorem exists_run_of_bounded (hs : Books s [] []) {bound : ℕ}
    (hbound : ∀ n, ((State.round array finalize)^[n] s).events.countP
      (Event.retains fun _ => true) ≤ bound) :
    ∃ fuel s', s.runFinalizers array finalize fuel = some s' := by
  have hrounds : (∃ k ≤ bound + 1, ((State.round array finalize)^[k] s).finalizers = []) ∨
      bound + 1 ≤ ((State.round array finalize)^[bound + 1] s).events.countP
        (Event.performs fun _ => true) := performs_iterate s (bound + 1)
  rcases hrounds with ⟨k, -, hempty⟩ | hmany
  · exact exists_run_of_empty hempty
  · -- More turns than finalizers that were ever added.
    have hbooks : Books ((State.round array finalize)^[bound + 1] s) [] [] :=
      hs.iterate (bound + 1)
    have hperformed := hbooks.performed fun _ => true
    have hretained := hbound (bound + 1)
    omega

/-- Whatever was sent to the thread object before, and whatever finalizers send to it, all of
them are run once. -/
theorem runOnce_of_calls [DecidableEq Obj] (array : PointerArray Obj)
    (finalize : Finalize Obj World) (w : World) (cs : List (Call Obj)) :
    RunOnce array finalize (State.calls array { world := w } cs) := by
  have hs : Books (State.calls array { world := w } cs) [] [] := (books_init w).calls cs
  constructor
  · intro fuel s' hrun
    obtain ⟨hempty, hs'⟩ := books_of_run hs hrun
    exact hs'.settled hempty
  · rintro ⟨bound, hbound⟩
    exact exists_run_of_bounded hs hbound

/-- The first occurrence is removed. -/
def PointerArray.erasing (Obj : Type*) [DecidableEq Obj] : PointerArray Obj where
  removeUnique ps o := if o ∈ ps then (ps.erase o, some o) else (ps, none)
  of_mem ps o ho := by
    rw [if_pos ho]
    exact ⟨rfl, List.erase_sublist, (List.perm_cons_erase ho).symm⟩
  of_notMem ps o ho := if_neg ho

/-- The first finalizer adds two others and tries to remove the second one, which waits for its
turn. The second one removes one of those that were added. -/
def meddling : Finalize ℕ Unit
  | 0, w => ([.add 2, .add 3, .remove 1], w)
  | 1, w => ([.remove 2, .remove 0], w)
  | _, w => ([], w)

theorem meddling_runOnce :
    RunOnce (PointerArray.erasing ℕ) meddling
        (State.calls (PointerArray.erasing ℕ) { world := () } [.add 0, .add 1]) ∧
      ((State.calls (PointerArray.erasing ℕ) { world := () } [.add 0, .add 1]).runFinalizers
        (PointerArray.erasing ℕ) meddling 3).map State.events =
        some [.retained 0, .retained 1, .performed 0, .retained 2, .retained 3, .autoreleased 0,
          .performed 1, .removed 2, .autoreleased 2, .autoreleased 1, .performed 3,
          .autoreleased 3] :=
  ⟨runOnce_of_calls (PointerArray.erasing ℕ) meddling () [.add 0, .add 1], by decide⟩

end End

end MulleObjC.NSThread.Finalizers
