import Mathlib.Data.Fintype.Basic
import MulleObjC.Library.Holdings
import MulleObjC.Library.Machine

/-!
# Atomic strings

`MulleObjCObjectSetAtomicDuplicatedUTF8String` and `-[NSThread mulleSetNameUTF8String:]` read the
pointer, duplicate the string and swap the pointers, in this order. If another thread was
faster, the duplicate is freed, else the string that was there. This one may have been read by
others, so `mulle_allocator_abafree` waits for them.
-/

namespace MulleObjC.AtomicId.Duplicate

open Machine
open Holdings (count count_update_comp count_eq_zero)

/-- What is reported. -/
inductive Event (Ptr Str : Type*)
  /-- The string that is to be set. -/
  | called (s : Option Str)
  /-- `mulle_allocator_strdup` -/
  | made (p : Ptr)
  | freed (p : Ptr)
  deriving DecidableEq

/-- Where a thread is. -/
inductive Local (Ptr Str : Type*)
  | idle
  /-- In front of `old = _mulle_atomic_pointer_read( ivar)` -/
  | reading (s : Option Str)
  /-- In front of `s = mulle_allocator_strdup( allocator, s)` -/
  | duplicating (old : Option Ptr) (s : Str)
  /-- In front of `actual = __mulle_atomic_pointer_cas( ivar, s, old)` -/
  | swapping (old s : Option Ptr)
  deriving DecidableEq

namespace Local

variable {Ptr Str : Type*}

/-- The duplicate that a thread has made. -/
def duplicate : Local Ptr Str → Option Ptr
  | swapping _ s => s
  | _ => none

/-- The pointer that a thread has read. -/
def old : Local Ptr Str → Option Ptr
  | duplicating old _ | swapping old _ => old
  | _ => none

/-- The string that a thread is to duplicate. -/
def str : Local Ptr Str → Option Str
  | reading s => s
  | duplicating _ s => some s
  | _ => none

end Local

/-- The slot, the memory and the threads. -/
structure State (Thread Ptr Str : Type*) where
  ivar : Option Ptr
  /-- The string behind a pointer, from `mulle_allocator_strdup` to the free. -/
  string : Ptr → Option Str
  /-- The frees that `mulle_allocator_abafree` has put off. -/
  waiting : Ptr → ℕ
  locals : Thread → Local Ptr Str

/-- What happens next. -/
inductive Act (Thread Ptr Str : Type*)
  /-- `MulleObjCObjectSetAtomicDuplicatedUTF8String` -/
  | set (t : Thread) (s : Option Str)
  | read (t : Thread)
  /-- The allocator chooses a pointer that is not in use. -/
  | strdup (t : Thread) (p : Ptr)
  | cas (t : Thread)
  /-- What was passed to `mulle_allocator_abafree` is freed. -/
  | reclaim (p : Ptr)

variable {Thread Ptr Str : Type*} [DecidableEq Thread] [DecidableEq Ptr]

namespace State

/-- A thread goes on. -/
def goto (s : State Thread Ptr Str) (t : Thread) (l : Local Ptr Str) : State Thread Ptr Str :=
  { s with locals := Function.update s.locals t l }

/-- `mulle_allocator_abafree`. Of `NULL` there is nothing to free. -/
def abafree (s : State Thread Ptr Str) : Option Ptr → Ptr → ℕ
  | none => s.waiting
  | some p => Function.update s.waiting p (s.waiting p + 1)

/-- `mulle_allocator_free` -/
def free (s : State Thread Ptr Str) : Option Ptr → Ptr → Option Str
  | none => s.string
  | some p => Function.update s.string p none

/-- One step of one thread, or of the allocator. A free that was put off is done when no thread
that has read the pointer is still at work. -/
def step [Fintype Thread] (s : State Thread Ptr Str) :
    Act Thread Ptr Str → Option (List (Event Ptr Str) × State Thread Ptr Str)
  | .set t str =>
    match s.locals t with
    | .idle => some ([.called str], s.goto t (.reading str))
    | _ => none
  | .read t =>
    match s.locals t with
    | .reading none => some ([], s.goto t (.swapping s.ivar none))
    | .reading (some str) => some ([], s.goto t (.duplicating s.ivar str))
    | _ => none
  | .strdup t p =>
    match s.locals t, s.string p with
    | .duplicating old str, none =>
      some ([.made p],
        { s with
          string := Function.update s.string p (some str)
          locals := Function.update s.locals t (.swapping old (some p)) })
    | _, _ => none
  | .cas t =>
    match s.locals t with
    | .swapping old str =>
      if s.ivar = old then
        some ([],
          { s with
            ivar := str
            waiting := s.abafree old
            locals := Function.update s.locals t .idle })
      else
        some (str.toList.map .freed,
          { s with
            string := s.free str
            locals := Function.update s.locals t .idle })
    | _ => none
  | .reclaim p =>
    if 0 < s.waiting p ∧ ∀ t, (s.locals t).old ≠ some p then
      some ([.freed p],
        { s with
          string := s.free (some p)
          waiting := Function.update s.waiting p (s.waiting p - 1) })
    else none

/-- Nothing is set yet, and no thread is at work. -/
def init (Thread Ptr Str : Type*) : State Thread Ptr Str :=
  ⟨none, fun _ => none, fun _ => 0, fun _ => .idle⟩

/-- The slot holds a string. -/
def held (s : State Thread Ptr Str) (p : Ptr) : ℕ := if s.ivar = some p then 1 else 0

/-- The duplicates that were made, and are not swapped in yet. -/
def inFlight [Fintype Thread] (s : State Thread Ptr Str) (p : Ptr) : ℕ :=
  count Finset.univ (fun t => (s.locals t).duplicate) p

/-- The places where a string is to be found. -/
def places [Fintype Thread] (s : State Thread Ptr Str) (p : Ptr) : ℕ :=
  s.held p + s.inFlight p + s.waiting p

end State

/-- A run of setters on one slot. -/
structure FreedOnce [Fintype Thread] [DecidableEq Str] (s : State Thread Ptr Str)
    (es : List (Event Ptr Str)) : Prop where
  /-- Every duplicate was freed once, or it is in the slot, not swapped in yet, or its free was
  put off. -/
  made : ∀ p, es.count (.made p) = es.count (.freed p) + s.places p
  /-- In each of these places there is a string that is not freed, and in no other. -/
  places : ∀ p, s.places p = if (s.string p).isSome then 1 else 0
  /-- The slot holds the duplicate of a string that was set, or `NULL`. -/
  ivar : ∀ p, s.ivar = some p → ∃ str, s.string p = some str ∧ .called (some str) ∈ es
  /-- Every string is the duplicate of one that was set. -/
  content : ∀ p str, s.string p = some str → .called (some str) ∈ es
  /-- A pointer that was read stays in use. -/
  pinned : ∀ t p, (s.locals t).old = some p → (s.string p).isSome = true

/-- What a step can do, in the order of the source. -/
inductive Steps (s : State Thread Ptr Str) : List (Event Ptr Str) → State Thread Ptr Str → Prop
  | call {t : Thread} (str : Option Str) (hl : s.locals t = .idle) :
      Steps s [.called str] (s.goto t (.reading str))
  | readForNull {t : Thread} (hl : s.locals t = .reading none) :
      Steps s [] (s.goto t (.swapping s.ivar none))
  | read {t : Thread} {str : Str} (hl : s.locals t = .reading (some str)) :
      Steps s [] (s.goto t (.duplicating s.ivar str))
  | strdup {t : Thread} {old : Option Ptr} {p : Ptr} {str : Str}
      (hl : s.locals t = .duplicating old str) (hp : s.string p = none) :
      Steps s [.made p]
        { s with
          string := Function.update s.string p (some str)
          locals := Function.update s.locals t (.swapping old (some p)) }
  | swapped {t : Thread} {str : Option Ptr} (hl : s.locals t = .swapping s.ivar str) :
      Steps s []
        { s with
          ivar := str
          waiting := s.abafree s.ivar
          locals := Function.update s.locals t .idle }
  | lost {t : Thread} {old str : Option Ptr} (hl : s.locals t = .swapping old str) :
      Steps s (str.toList.map .freed)
        { s with
          string := s.free str
          locals := Function.update s.locals t .idle }
  | reclaimed {p : Ptr} (hp : 0 < s.waiting p) (hold : ∀ t, (s.locals t).old ≠ some p) :
      Steps s [.freed p]
        { s with
          string := s.free (some p)
          waiting := Function.update s.waiting p (s.waiting p - 1) }

section Step

variable [Fintype Thread] {s s' : State Thread Ptr Str} {a : Act Thread Ptr Str}
  {es : List (Event Ptr Str)} {t : Thread} {p : Ptr}

theorem steps_of_step (h : s.step a = some (es, s')) : Steps s es s' := by
  cases a with
  | set t str =>
    simp only [State.step] at h
    split at h
    next hl =>
      obtain ⟨rfl, rfl⟩ := Prod.mk.inj (Option.some.inj h)
      exact .call str hl
    next => contradiction
  | read t =>
    simp only [State.step] at h
    split at h
    next hl =>
      obtain ⟨rfl, rfl⟩ := Prod.mk.inj (Option.some.inj h)
      exact .readForNull hl
    next hl =>
      obtain ⟨rfl, rfl⟩ := Prod.mk.inj (Option.some.inj h)
      exact .read hl
    next => contradiction
  | strdup t p =>
    simp only [State.step] at h
    split at h
    next hl hp =>
      obtain ⟨rfl, rfl⟩ := Prod.mk.inj (Option.some.inj h)
      exact .strdup hl hp
    next => contradiction
  | cas t =>
    simp only [State.step] at h
    split at h
    next hl =>
      split at h
      next hold =>
        subst hold
        obtain ⟨rfl, rfl⟩ := Prod.mk.inj (Option.some.inj h)
        exact .swapped hl
      next =>
        obtain ⟨rfl, rfl⟩ := Prod.mk.inj (Option.some.inj h)
        exact .lost hl
    next => contradiction
  | reclaim p =>
    simp only [State.step] at h
    split at h
    next hp =>
      obtain ⟨rfl, rfl⟩ := Prod.mk.inj (Option.some.inj h)
      exact .reclaimed hp.1 hp.2
    next => contradiction

/-- A thread that goes on carries another duplicate. -/
theorem inFlight_update (s : State Thread Ptr Str) (ivar : Option Ptr) (string : Ptr → Option Str)
    (waiting : Ptr → ℕ) (t : Thread) (l : Local Ptr Str) (p : Ptr) :
    (⟨ivar, string, waiting, Function.update s.locals t l⟩ : State Thread Ptr Str).inFlight p +
        (if (s.locals t).duplicate = some p then 1 else 0) =
      s.inFlight p + (if l.duplicate = some p then 1 else 0) :=
  count_update_comp Local.duplicate s.locals t l

/-- A thread that goes on without a duplicate changes no place. -/
theorem places_goto {l : Local Ptr Str} (hl : l.duplicate = (s.locals t).duplicate) :
    (s.goto t l).places p = s.places p := by
  have hcarried := inFlight_update s s.ivar s.string s.waiting t l p
  rw [hl] at hcarried
  have hflight : (s.goto t l).inFlight p = s.inFlight p := Nat.add_right_cancel hcarried
  rw [State.places, hflight]
  rfl

omit [DecidableEq Thread] in
/-- The duplicate of a thread has a place. -/
theorem places_pos (hl : (s.locals t).duplicate = some p) : 0 < s.inFlight p := by
  have hmem : t ∈ Finset.univ.filter fun u => (s.locals u).duplicate = some p :=
    Finset.mem_filter.mpr ⟨Finset.mem_univ t, hl⟩
  exact Finset.card_pos.mpr ⟨t, hmem⟩

omit [DecidableEq Thread] [Fintype Thread] in
/-- `mulle_allocator_abafree` takes over the string. -/
theorem abafree_eq (s : State Thread Ptr Str) (p : Ptr) :
    s.abafree s.ivar p = s.waiting p + s.held p := by
  unfold State.abafree State.held
  cases s.ivar with
  | none => simp
  | some q =>
    by_cases hq : q = p
    · subst hq
      simp
    · simp [hq, Function.update_of_ne (Ne.symm hq)]

variable [DecidableEq Str]

/-- Every step accounts for the duplicates. -/
theorem places_step (h : Steps s es s') (p : Ptr) :
    es.count (.made p) + s.places p = es.count (.freed p) + s'.places p := by
  cases h with
  | call str hl => simp [places_goto (l := .reading str) (by rw [hl]; rfl)]
  | readForNull hl => simp [places_goto (l := .swapping s.ivar none) (by rw [hl]; rfl)]
  | @read t str hl => simp [places_goto (l := .duplicating s.ivar str) (by rw [hl]; rfl)]
  | @strdup t old q str hl hq =>
    have hcarried := inFlight_update s s.ivar (Function.update s.string q (some str)) s.waiting t
      (.swapping old (some q)) p
    by_cases hp : q = p
    · simp [hl, Local.duplicate, hp] at hcarried
      simp [State.places, State.held, hp]
      omega
    · simp [hl, Local.duplicate, hp] at hcarried
      simp [State.places, State.held, hp]
      omega
  | @swapped t str hl =>
    have hcarried := inFlight_update s str s.string (s.abafree s.ivar) t .idle p
    have habafree := abafree_eq s p
    simp [hl, Local.duplicate] at hcarried
    simp [State.places]
    simp [State.held] at habafree ⊢
    omega
  | @lost t old str hl =>
    have hcarried := inFlight_update s s.ivar (s.free str) s.waiting t .idle p
    cases str with
    | none =>
      simp [hl, Local.duplicate] at hcarried
      simp [State.places, State.held]
      omega
    | some q =>
      by_cases hp : q = p
      · simp [hl, Local.duplicate, hp] at hcarried
        simp [State.places, State.held, hp]
        omega
      · simp [hl, Local.duplicate, hp] at hcarried
        simp [State.places, State.held, hp]
        omega
  | @reclaimed q hq hold =>
    by_cases hp : q = p
    · subst hp
      simp [State.places, State.held, State.inFlight]
      omega
    · simp [State.places, State.held, State.inFlight, hp, Function.update_of_ne (Ne.symm hp)]

omit [DecidableEq Thread] [DecidableEq Str] in
/-- What has a place is there. -/
theorem isSome_of_places (hs : s.places p = if (s.string p).isSome then 1 else 0)
    (hpos : 0 < s.places p) : (s.string p).isSome = true := by
  by_contra hnone
  rw [hs, if_neg hnone] at hpos
  omega

/-- A string is there from `mulle_allocator_strdup` to its free. -/
theorem string_step (hs : ∀ p, s.places p = if (s.string p).isSome then 1 else 0)
    (h : Steps s es s') (p : Ptr) : s'.places p = if (s'.string p).isSome then 1 else 0 := by
  have hplaces := places_step h p
  have hold := hs p
  cases h with
  | call | readForNull | read | swapped =>
    simp at hplaces
    exact hplaces.symm.trans hold
  | @strdup t old q str hl hq =>
    by_cases hp : q = p
    · subst hp
      simp [hq] at hplaces hold ⊢
      omega
    · simp [hp] at hplaces
      simpa [Function.update_of_ne (Ne.symm hp), ← hplaces] using hold
  | @lost t old str hl =>
    cases str with
    | none =>
      simp at hplaces
      exact hplaces.symm.trans hold
    | some q =>
      by_cases hp : q = p
      · subst hp
        have hthere := isSome_of_places hold
          (Nat.lt_of_lt_of_le (places_pos (by rw [hl]; rfl)) (by unfold State.places; omega))
        simp [hthere, State.free] at hplaces hold ⊢
        omega
      · simp [hp, State.free] at hplaces
        simpa [State.free, Function.update_of_ne (Ne.symm hp), ← hplaces] using hold
  | @reclaimed q hq hread =>
    by_cases hp : q = p
    · subst hp
      have hthere := isSome_of_places hold (by unfold State.places; omega)
      simp [hthere, State.free] at hplaces hold ⊢
      omega
    · simp [hp, State.free] at hplaces
      simpa [State.free, Function.update_of_ne (Ne.symm hp), ← hplaces] using hold

end Step

/-- The facts about a run that its steps preserve. -/
structure Sound [Fintype Thread] [DecidableEq Str] (s : State Thread Ptr Str)
    (es : List (Event Ptr Str)) : Prop extends FreedOnce s es where
  asked : ∀ t str, (s.locals t).str = some str → .called (some str) ∈ es
  /-- Nobody has read a duplicate that was not swapped in. -/
  apart : ∀ t u p, (s.locals t).duplicate = some p → (s.locals u).old ≠ some p

section Run

variable [Fintype Thread] [DecidableEq Str] {s s' : State Thread Ptr Str}
  {es fs : List (Event Ptr Str)}

omit [DecidableEq Ptr] [Fintype Thread] [DecidableEq Str] in
/-- A thread that goes on, or another one. -/
theorem update_cases {P : Local Ptr Str → Prop} {t u : Thread} {l : Local Ptr Str}
    (h : P (Function.update s.locals t l u)) : P l ∨ P (s.locals u) := by
  by_cases hu : u = t
  · subst hu
    exact .inl (by simpa using h)
  · exact .inr (by simpa [Function.update_of_ne hu] using h)

omit [DecidableEq Thread] in
/-- The string in the slot is there. -/
theorem Sound.isSome_ivar (hs : Sound s es) {p : Ptr} (hp : s.ivar = some p) :
    (s.string p).isSome = true := by
  apply isSome_of_places (hs.places p)
  simp only [State.places, State.held, hp, if_true]
  omega

omit [DecidableEq Thread] in
/-- The string in the slot is no duplicate that is still to be swapped in. -/
theorem Sound.duplicate_ne (hs : Sound s es) {t : Thread} {p : Ptr} (hp : s.ivar = some p) :
    (s.locals t).duplicate ≠ some p := by
  intro hl
  have hpos := places_pos hl
  have hplaces := hs.places p
  rw [if_pos (hs.isSome_ivar hp)] at hplaces
  simp only [State.places, State.held, hp, if_true] at hplaces
  omega

omit [DecidableEq Thread] [Fintype Thread] [DecidableEq Str] in
theorem free_of_ne {q : Option Ptr} {p : Ptr} (hq : q ≠ some p) : s.free q p = s.string p := by
  cases q with
  | none => rfl
  | some q => exact Function.update_of_ne (fun hp => hq (congrArg some hp.symm)) _ _

omit [DecidableEq Thread] [Fintype Thread] [DecidableEq Str] in
theorem string_of_free {q : Option Ptr} {p : Ptr} {str : Str} (h : s.free q p = some str) :
    s.string p = some str := by
  by_cases hq : q = some p
  · subst hq
    simp [State.free] at h
  · rwa [free_of_ne hq] at h

/-- A new string is the one that its setter was called with. -/
theorem content_step (hs : Sound s es) (h : Steps s fs s') {p : Ptr} {str : Str}
    (hstr : s'.string p = some str) : .called (some str) ∈ es ++ fs := by
  cases h with
  | call | readForNull | read | swapped => exact List.mem_append_left _ (hs.content p str hstr)
  | @strdup t old q str' hl hq =>
    by_cases hp : p = q
    · subst hp
      obtain rfl : str' = str := by simpa using hstr
      exact List.mem_append_left _ (hs.asked t str' (by rw [hl]; rfl))
    · have hsame : Function.update s.string q (some str') p = s.string p :=
        Function.update_of_ne hp _ _
      exact List.mem_append_left _ (hs.content p str (hsame.symm.trans hstr))
  | lost => exact List.mem_append_left _ (hs.content p str (string_of_free hstr))
  | @reclaimed q =>
    exact List.mem_append_left _ (hs.content p str (string_of_free (q := some q) hstr))

/-- A pointer stays in use as long as a thread that has read it is at work. -/
theorem pinned_step (hs : Sound s es) (h : Steps s fs s') {t : Thread} {p : Ptr}
    (hl : (s'.locals t).old = some p) : (s'.string p).isSome = true := by
  cases h with
  | call str _ =>
    rcases update_cases (P := fun l => l.old = some p) hl with hl | hl
    · simp [Local.old] at hl
    · exact hs.pinned t p hl
  | readForNull _ | read _ =>
    rcases update_cases (P := fun l => l.old = some p) hl with hl | hl
    · exact hs.isSome_ivar hl
    · exact hs.pinned t p hl
  | @strdup u old q str hu hq =>
    have hthere : (s.string p).isSome = true := by
      rcases update_cases (P := fun l => l.old = some p) hl with hl | hl
      · exact hs.pinned u p (by rw [hu]; exact hl)
      · exact hs.pinned t p hl
    by_cases hp : p = q
    · simp [hp]
    · simpa [Function.update_of_ne hp] using hthere
  | swapped _ =>
    rcases update_cases (P := fun l => l.old = some p) hl with hl | hl
    · simp [Local.old] at hl
    · exact hs.pinned t p hl
  | @lost u old str hu =>
    rcases update_cases (P := fun l => l.old = some p) hl with hl | hl
    · simp [Local.old] at hl
    · -- The duplicate that is freed was never to be read.
      have hne : str ≠ some p := fun hp => hs.apart u t p (by rw [hu]; exact hp) hl
      simpa [free_of_ne hne] using hs.pinned t p hl
  | @reclaimed q hq hold =>
    have hne : some q ≠ some p := fun hp => hold t (hp ▸ hl)
    simpa [free_of_ne hne] using hs.pinned t p hl

theorem asked_step (hs : Sound s es) (h : Steps s fs s') {t : Thread} {str : Str}
    (hl : (s'.locals t).str = some str) : .called (some str) ∈ es ++ fs := by
  cases h with
  | @call u str' _ =>
    rcases update_cases (P := fun l => l.str = some str) hl with hl | hl
    · obtain rfl : str' = some str := hl
      exact List.mem_append_right _ (List.mem_singleton_self _)
    · exact List.mem_append_left _ (hs.asked t str hl)
  | @read u str' hu =>
    rcases update_cases (P := fun l => l.str = some str) hl with hl | hl
    · exact List.mem_append_left _ (hs.asked u str (by rw [hu]; exact hl))
    · exact List.mem_append_left _ (hs.asked t str hl)
  | readForNull | strdup | swapped | lost =>
    rcases update_cases (P := fun l => l.str = some str) hl with hl | hl
    · simp [Local.str] at hl
    · exact List.mem_append_left _ (hs.asked t str hl)
  | reclaimed => exact List.mem_append_left _ (hs.asked t str hl)

/-- A duplicate is read by nobody before it is in the slot. -/
theorem apart_step (hs : Sound s es) (h : Steps s fs s') {t u : Thread} {p : Ptr}
    (hl : (s'.locals t).duplicate = some p) : (s'.locals u).old ≠ some p := by
  intro hold
  cases h with
  | call str _ =>
    rcases update_cases (P := fun l => l.duplicate = some p) hl with hl | hl
    · simp [Local.duplicate] at hl
    · rcases update_cases (P := fun l => l.old = some p) hold with hold | hold
      · simp [Local.old] at hold
      · exact hs.apart t u p hl hold
  | readForNull _ | read _ =>
    rcases update_cases (P := fun l => l.duplicate = some p) hl with hl | hl
    · simp [Local.duplicate] at hl
    · rcases update_cases (P := fun l => l.old = some p) hold with hold | hold
      · exact hs.duplicate_ne hold hl
      · exact hs.apart t u p hl hold
  | @strdup v old q str hv hq =>
    have hread : ∃ u, (s.locals u).old = some p := by
      rcases update_cases (P := fun l => l.old = some p) hold with hold | hold
      · exact ⟨v, by rw [hv]; exact hold⟩
      · exact ⟨u, hold⟩
    obtain ⟨u, hold⟩ := hread
    rcases update_cases (P := fun l => l.duplicate = some p) hl with hl | hl
    · -- The allocator has chosen a pointer that is not in use.
      obtain rfl : q = p := Option.some.inj hl
      have hthere := hs.pinned u q hold
      simp [hq] at hthere
    · exact hs.apart t u p hl hold
  | swapped _ | lost _ =>
    rcases update_cases (P := fun l => l.duplicate = some p) hl with hl | hl
    · simp [Local.duplicate] at hl
    · rcases update_cases (P := fun l => l.old = some p) hold with hold | hold
      · simp [Local.old] at hold
      · exact hs.apart t u p hl hold
  | reclaimed => exact hs.apart t u p hl hold

/-- One more step of a run. -/
theorem Sound.step (hs : Sound s es) (h : Steps s fs s') : Sound s' (es ++ fs) where
  made p := by
    have hold := hs.made p
    have hnew := places_step h p
    simp only [List.count_append]
    omega
  places p := string_step hs.places h p
  ivar p hp := by
    have hpos : 0 < s'.places p := by
      simp only [State.places, State.held, hp, if_true]
      omega
    obtain ⟨str, hstr⟩ := Option.isSome_iff_exists.mp
      (isSome_of_places (string_step hs.places h p) hpos)
    exact ⟨str, hstr, content_step hs h hstr⟩
  content p str hstr := content_step hs h hstr
  pinned t p hl := pinned_step hs h hl
  asked t str hl := asked_step hs h hl
  apart t u p hl := apart_step hs h hl

omit [DecidableEq Thread] [DecidableEq Str] in
theorem places_init (p : Ptr) : (State.init Thread Ptr Str).places p = 0 := by
  have hnone : (State.init Thread Ptr Str).inFlight p = 0 :=
    count_eq_zero fun t _ => by simp [State.init, Local.duplicate]
  rw [State.places, hnone]
  rfl

/-- In every run of setters each duplicate is freed once, or it is where it belongs. -/
theorem freedOnce_of_run (hrun : Run State.step (.init Thread Ptr Str) es s) : FreedOnce s es := by
  refine (hrun.invariant_trace (fun es s => Sound s es) ?_ ?_).toFreedOnce
  · intro r a es fs r' _ hr hstep
    exact hr.step (steps_of_step hstep)
  · constructor
    case toFreedOnce =>
      constructor
      case made =>
        intro p
        rw [places_init p]
        rfl
      case places =>
        intro p
        rw [places_init p]
        rfl
      case ivar => exact fun p hp => nomatch hp
      case content => exact fun p str hstr => nomatch hstr
      case pinned => exact fun t p hl => nomatch hl
    case asked => exact fun t str hl => nomatch hl
    case apart => exact fun t u p hl => nomatch hl

end Run

/-- Two threads set a name at a time. The late one frees its duplicate. A third name replaces the
first one, which is freed when nobody reads it any more. -/
theorem race_frees_once : ∃ es, ∃ s : State Bool ℕ (List Char), FreedOnce s es ∧
    s.ivar = some 3 ∧ s.string 3 = some ['c'] ∧ es = [.called (some ['a']), .called (some ['b']),
      .made 1, .made 2, .freed 2, .called (some ['c']), .made 3, .freed 1] := by
  have hrun := run_of_exec State.step (.init Bool ℕ (List Char))
    [.set true (some ['a']), .set false (some ['b']), .read true, .read false, .strdup true 1,
      .strdup false 2, .cas true, .cas false, .set false (some ['c']), .read false, .strdup false 3,
      .cas false, .reclaim 1] rfl
  exact ⟨_, _, freedOnce_of_run hrun, rfl, rfl, rfl⟩

end MulleObjC.AtomicId.Duplicate
