import Mathlib.Logic.Function.Basic
import MulleObjC.Library.Machine

/-!
# Objects that are created once

The placeholder of `+instantiate`, the one of a class cluster and a singleton are stored in a
slot of their class. A thread that finds the slot empty creates an object, and tries to store
it. If another thread was faster, the object is given up and the slot is read again. The loop
of the class cluster forgets to give it up.
-/

namespace MulleObjC.NSObject.Once

open Machine

/-- The slots of a class. -/
inductive Kind
  /-- `+instantiate` -/
  | instantiate
  /-- The `+alloc` of `MulleObjCClassCluster`. -/
  | classCluster
  /-- `MulleObjCSingletonCreate`, which does not use ephemeral singletons. -/
  | singleton
  deriving DecidableEq, Repr

/-- What is reported. -/
inductive Event (Object : Type*)
  | allocated (kind : Kind) (obj : Object)
  | constantified (obj : Object)
  | freed (obj : Object)
  | returned (kind : Kind) (obj : Object)
  deriving DecidableEq

/-- An object in its life. -/
inductive Status
  | absent
  /-- Allocated, with the reference of its creator. -/
  | live
  /-- `_mulle_objc_object_constantify_noatomic` -/
  | constant
  | freed
  deriving DecidableEq, Repr

/-- Where a thread is. -/
inductive Local (Object : Type*)
  | idle
  /-- In front of `_mulle_objc_infraclass_get_instantiate`, `…_classcluster`, `…_singleton`. -/
  | getting (kind : Kind)
  /-- The slot was empty. -/
  | creating (kind : Kind)
  /-- In front of `_mulle_objc_infraclass_set_instantiate`, `…_classcluster`, `…_singleton`. -/
  | setting (kind : Kind) (obj : Object)
  /-- The object is stored. -/
  | constantifying (kind : Kind) (obj : Object)
  /-- Another thread was faster. -/
  | disposing (kind : Kind) (obj : Object)
  deriving DecidableEq

/-- The object of a thread that is not stored. -/
def Local.created {Object : Type*} : Local Object → Option Object
  | setting _ obj | disposing _ obj => some obj
  | _ => none

/-- The object that a thread has created, and which is not constant yet. -/
def Local.made {Object : Type*} : Local Object → Option Object
  | constantifying _ obj => some obj
  | l => l.created

/-- The slots of the class, the objects and the threads. -/
structure State (Thread Object : Type*) where
  slot : Kind → Option Object
  status : Object → Status
  locals : Thread → Local Object

/-- What happens next. -/
inductive Act (Thread Object : Type*)
  | call (t : Thread) (kind : Kind)
  | get (t : Thread)
  /-- `_MulleObjCInstantiatePlaceholderNewForClass`, `MulleObjCNewClassClusterPlaceholder` or
  `MulleObjCSingletonNew` -/
  | create (t : Thread) (obj : Object)
  | set (t : Thread)
  | constantify (t : Thread)
  | dispose (t : Thread)

variable {Thread Object : Type*} [DecidableEq Thread] [DecidableEq Object]

namespace State

/-- A thread goes on. -/
def goto (s : State Thread Object) (t : Thread) (l : Local Object) : State Thread Object :=
  { s with locals := Function.update s.locals t l }

/-- What a thread does about an object that it could not store. -/
def dispose (s : State Thread Object) (obj : Object) :
    Kind → List (Event Object) × (Object → Status)
  -- `[placeholder dealloc]`
  | .instantiate => ([.freed obj], Function.update s.status obj .freed)
  | .classCluster => ([], s.status)
  -- `[singleton release]`
  | .singleton =>
    if s.status obj = .live then ([.freed obj], Function.update s.status obj .freed)
    else ([], s.status)

/-- One step of one thread. -/
def step (s : State Thread Object) :
    Act Thread Object → Option (List (Event Object) × State Thread Object)
  | .call t kind =>
    match s.locals t with
    | .idle => some ([], s.goto t (.getting kind))
    | _ => none
  | .get t =>
    match s.locals t with
    | .getting kind =>
      match s.slot kind with
      | some obj => some ([.returned kind obj], s.goto t .idle)
      | none => some ([], s.goto t (.creating kind))
    | _ => none
  | .create t obj =>
    match s.locals t, s.status obj with
    | .creating kind, .absent =>
      some ([.allocated kind obj],
        { s with
          status := Function.update s.status obj .live
          locals := Function.update s.locals t (.setting kind obj) })
    | _, _ => none
  | .set t =>
    match s.locals t with
    | .setting kind obj =>
      if s.slot kind = none then
        some ([],
          { s with
            slot := Function.update s.slot kind (some obj)
            locals := Function.update s.locals t (.constantifying kind obj) })
      else some ([], s.goto t (.disposing kind obj))
    | _ => none
  | .constantify t =>
    match s.locals t with
    | .constantifying kind obj =>
      some ([.constantified obj, .returned kind obj],
        { s with
          status := Function.update s.status obj .constant
          locals := Function.update s.locals t .idle })
    | _ => none
  | .dispose t =>
    match s.locals t with
    | .disposing kind obj =>
      some ((s.dispose obj kind).1,
        { s with
          status := (s.dispose obj kind).2
          locals := Function.update s.locals t (.getting kind) })
    | _ => none

/-- No object is created yet, and no thread is at work. -/
def init (Thread Object : Type*) : State Thread Object :=
  ⟨fun _ => none, fun _ => .absent, fun _ => .idle⟩

end State

/-- The objects of a run. -/
structure CreatedOnce (es : List (Event Object)) (s : State Thread Object) : Prop where
  /-- All calls return the same object. -/
  same : ∀ kind obj obj', .returned kind obj ∈ es → .returned kind obj' ∈ es → obj = obj'
  /-- It is never freed. -/
  kept : ∀ kind obj, .returned kind obj ∈ es → .freed obj ∉ es
  /-- It is made constant once, by the thread that stored it. -/
  constantified : ∀ kind obj, .returned kind obj ∈ es →
    (∀ t, s.locals t ≠ .constantifying kind obj) → es.count (.constantified obj) = 1
  /-- An object that is not stored and that no thread is about to store or to give up was freed
  once. -/
  reclaimed : ∀ kind obj, .allocated kind obj ∈ es → (∀ kind, s.slot kind ≠ some obj) →
    (∀ t, (s.locals t).created ≠ some obj) → es.count (.freed obj) = 1
  /-- No object is freed twice. -/
  freed : ∀ obj, es.count (.freed obj) ≤ 1

/-- The step finds the slot of a class cluster taken, although it was empty before. -/
def State.contended (s : State Thread Object) : Act Thread Object → Bool
  | .set t =>
    match s.locals t with
    | .setting .classCluster _ => (s.slot .classCluster).isSome
    | _ => false
  | _ => false

/-- No placeholder of a class cluster comes too late. -/
abbrev Uncontended (s : State Thread Object) (a : Act Thread Object) : Prop :=
  s.contended a = false

/-- The objects that are not given up have a place, and only one. -/
structure Placed (s : State Thread Object) : Prop where
  made : ∀ t obj, (s.locals t).made = some obj → s.status obj = .live
  made_inj : ∀ t u obj, (s.locals t).made = some obj → (s.locals u).made = some obj → t = u
  live : ∀ obj, s.status obj = .live → ∃ t, (s.locals t).made = some obj
  constant : ∀ obj, s.status obj = .constant → ∃ kind, s.slot kind = some obj
  unpublished : ∀ t obj, (s.locals t).created = some obj → ∀ kind, s.slot kind ≠ some obj
  published : ∀ kind obj, s.slot kind = some obj →
    s.status obj = .constant ∨ ∃ t, s.locals t = .constantifying kind obj
  constantifying : ∀ t kind obj, s.locals t = .constantifying kind obj → s.slot kind = some obj
  disposing : ∀ t kind obj, s.locals t = .disposing kind obj → kind ≠ .classCluster

/-- What was reported of the objects. -/
structure Reported (es : List (Event Object)) (s : State Thread Object) : Prop where
  freed : ∀ obj, es.count (.freed obj) = if s.status obj = .freed then 1 else 0
  constantified : ∀ obj, es.count (.constantified obj) = if s.status obj = .constant then 1 else 0
  allocated : ∀ kind obj, .allocated kind obj ∈ es → s.status obj ≠ .absent
  returned : ∀ kind obj, .returned kind obj ∈ es → s.slot kind = some obj

/-- What a step can do under the condition, in the order of the source. -/
inductive Steps (s : State Thread Object) : List (Event Object) → State Thread Object → Prop
  | call {t : Thread} (kind : Kind) (hl : s.locals t = .idle) :
      Steps s [] (s.goto t (.getting kind))
  | found {t : Thread} {kind : Kind} {obj : Object} (hl : s.locals t = .getting kind)
      (hslot : s.slot kind = some obj) : Steps s [.returned kind obj] (s.goto t .idle)
  | missed {t : Thread} {kind : Kind} (hl : s.locals t = .getting kind) :
      Steps s [] (s.goto t (.creating kind))
  | created {t : Thread} {kind : Kind} {obj : Object} (hl : s.locals t = .creating kind)
      (hobj : s.status obj = .absent) :
      Steps s [.allocated kind obj]
        { s with
          status := Function.update s.status obj .live
          locals := Function.update s.locals t (.setting kind obj) }
  | won {t : Thread} {kind : Kind} {obj : Object} (hl : s.locals t = .setting kind obj)
      (hslot : s.slot kind = none) :
      Steps s []
        { s with
          slot := Function.update s.slot kind (some obj)
          locals := Function.update s.locals t (.constantifying kind obj) }
  | lost {t : Thread} {kind : Kind} {obj : Object} (hl : s.locals t = .setting kind obj)
      (hkind : kind ≠ .classCluster) : Steps s [] (s.goto t (.disposing kind obj))
  | constantified {t : Thread} {kind : Kind} {obj : Object}
      (hl : s.locals t = .constantifying kind obj) :
      Steps s [.constantified obj, .returned kind obj]
        { s with
          status := Function.update s.status obj .constant
          locals := Function.update s.locals t .idle }
  | disposed {t : Thread} {kind : Kind} {obj : Object} (hl : s.locals t = .disposing kind obj) :
      Steps s (s.dispose obj kind).1
        { s with
          status := (s.dispose obj kind).2
          locals := Function.update s.locals t (.getting kind) }

section Step

variable {s s' : State Thread Object} {a : Act Thread Object} {es fs : List (Event Object)}
  {t : Thread}

theorem steps_of_step (hcond : Uncontended s a) (h : s.step a = some (es, s')) :
    Steps s es s' := by
  cases a with
  | call t kind =>
    simp only [State.step] at h
    split at h
    next hl =>
      obtain ⟨rfl, rfl⟩ := Prod.mk.inj (Option.some.inj h)
      exact .call kind hl
    next => contradiction
  | get t =>
    simp only [State.step] at h
    split at h
    next hl =>
      split at h
      next hslot =>
        obtain ⟨rfl, rfl⟩ := Prod.mk.inj (Option.some.inj h)
        exact .found hl hslot
      next =>
        obtain ⟨rfl, rfl⟩ := Prod.mk.inj (Option.some.inj h)
        exact .missed hl
    next => contradiction
  | create t obj =>
    simp only [State.step] at h
    split at h
    next hl hobj =>
      obtain ⟨rfl, rfl⟩ := Prod.mk.inj (Option.some.inj h)
      exact .created hl hobj
    next => contradiction
  | set t =>
    simp only [State.step] at h
    split at h
    next hl =>
      split at h
      next hslot =>
        obtain ⟨rfl, rfl⟩ := Prod.mk.inj (Option.some.inj h)
        exact .won hl hslot
      next hslot =>
        obtain ⟨rfl, rfl⟩ := Prod.mk.inj (Option.some.inj h)
        refine .lost hl fun hkind => ?_
        subst hkind
        simp only [Uncontended, State.contended, hl, Option.isSome_eq_false_iff,
          Option.isNone_iff_eq_none] at hcond
        exact hslot hcond
    next => contradiction
  | constantify t =>
    simp only [State.step] at h
    split at h
    next hl =>
      obtain ⟨rfl, rfl⟩ := Prod.mk.inj (Option.some.inj h)
      exact .constantified hl
    next => contradiction
  | dispose t =>
    simp only [State.step] at h
    split at h
    next hl =>
      obtain ⟨rfl, rfl⟩ := Prod.mk.inj (Option.some.inj h)
      exact .disposed hl
    next => contradiction

omit [DecidableEq Thread] [DecidableEq Object] in
theorem made_of_created {l : Local Object} {obj : Object} (h : l.created = some obj) :
    l.made = some obj := by
  cases l <;> first | exact h | cases h

omit [DecidableEq Object] in
/-- A thread goes on with the same object, which it has not stored. -/
theorem Placed.goto (hs : Placed s) {l : Local Object} (hcreated : l.created = (s.locals t).created)
    (hl : l.made = l.created) (ht : (s.locals t).made = (s.locals t).created)
    (hdisposing : ∀ kind obj, l = .disposing kind obj → kind ≠ .classCluster) :
    Placed (s.goto t l) := by
  have hconstantifying : ∀ kind obj, l ≠ .constantifying kind obj := by
    rintro kind obj rfl
    cases hl
  have ht' : ∀ kind obj, s.locals t ≠ .constantifying kind obj := by
    intro kind obj h
    rw [h] at ht
    cases ht
  have hother : ∀ u, u ≠ t → (s.goto t l).locals u = s.locals u := by
    intro u hu
    exact Function.update_of_ne hu _ _
  have hself : (s.goto t l).locals t = l := Function.update_self _ _ _
  have hmade : ∀ u, ((s.goto t l).locals u).made = (s.locals u).made := by
    intro u
    by_cases hu : u = t
    · subst hu
      rw [hself, hl, hcreated, ht]
    · rw [hother u hu]
  refine ⟨fun u obj => ?_, fun u u' obj => ?_, fun obj hobj => ?_, hs.constant, ?_, ?_, ?_, ?_⟩
  · rw [hmade]
    exact hs.made u obj
  · rw [hmade, hmade]
    exact hs.made_inj u u' obj
  · simp only [hmade]
    exact hs.live obj hobj
  · intro u obj hu
    by_cases hut : u = t
    · subst hut
      rw [hself, hcreated] at hu
      exact hs.unpublished u obj hu
    · rw [hother u hut] at hu
      exact hs.unpublished u obj hu
  · intro kind obj hslot
    rcases hs.published kind obj hslot with hconstant | ⟨u, hu⟩
    · exact .inl hconstant
    · have hut : u ≠ t := by
        rintro rfl
        exact ht' kind obj hu
      exact .inr ⟨u, (hother u hut).trans hu⟩
  · intro u kind obj hu
    by_cases hut : u = t
    · subst hut
      exact absurd (hself.symm.trans hu) (hconstantifying kind obj)
    · exact hs.constantifying u kind obj ((hother u hut).symm.trans hu)
  · intro u kind obj hu
    by_cases hut : u = t
    · subst hut
      exact hdisposing kind obj (hself.symm.trans hu)
    · exact hs.disposing u kind obj ((hother u hut).symm.trans hu)

omit [DecidableEq Thread] in
/-- Either way the object is freed. -/
theorem dispose_eq {kind : Kind} {obj : Object} (hkind : kind ≠ .classCluster)
    (hlive : s.status obj = .live) :
    s.dispose obj kind = ([.freed obj], Function.update s.status obj .freed) := by
  cases kind with
  | instantiate => rfl
  | classCluster => exact absurd rfl hkind
  | singleton => exact if_pos hlive

/-- A new object has its place in the thread that created it. -/
theorem Placed.created (hs : Placed s) {kind : Kind} {obj : Object}
    (hl : s.locals t = .creating kind) (hobj : s.status obj = .absent) :
    Placed { s with
      status := Function.update s.status obj .live
      locals := Function.update s.locals t (.setting kind obj) } := by
  constructor
  case live =>
    intro o ho
    by_cases h : o = obj
    · subst h
      exact ⟨t, by simp [Local.made, Local.created]⟩
    · obtain ⟨u, hu⟩ := hs.live o (by simpa [h] using ho)
      exact ⟨u, by grind [Local.made, Local.created]⟩
  case published =>
    intro k o ho
    rcases hs.published k o ho with h | ⟨u, hu⟩
    · exact .inl (by grind)
    · exact .inr ⟨u, by grind⟩
  all_goals grind [Placed, Local.made, Local.created]

omit [DecidableEq Object] in
/-- It gets into the slot. -/
theorem Placed.won (hs : Placed s) {kind : Kind} {obj : Object}
    (hl : s.locals t = .setting kind obj) (hslot : s.slot kind = none) :
    Placed { s with
      slot := Function.update s.slot kind (some obj)
      locals := Function.update s.locals t (.constantifying kind obj) } := by
  have hobj : (s.locals t).made = some obj := by rw [hl]; rfl
  constructor
  case live =>
    intro o ho
    obtain ⟨u, hu⟩ := hs.live o ho
    exact ⟨u, by grind [Local.made, Local.created]⟩
  case constant =>
    intro o ho
    obtain ⟨k, hk⟩ := hs.constant o ho
    exact ⟨k, by grind⟩
  case unpublished =>
    intro u o hu k hk
    have hut : u ≠ t := by
      rintro rfl
      simp [Local.created] at hu
    have hcreated : (s.locals u).created = some o := by simpa [hut] using hu
    by_cases hkind : k = kind
    · subst hkind
      obtain rfl : obj = o := by simpa using hk
      exact hut (hs.made_inj u t obj (made_of_created hcreated) hobj)
    · exact hs.unpublished u o hcreated k (by simpa [hkind] using hk)
  case published =>
    intro k o ho
    by_cases hk : k = kind
    · subst hk
      exact .inr ⟨t, by grind⟩
    · rcases hs.published k o (by simpa [hk] using ho) with h | ⟨u, hu⟩
      · exact .inl h
      · exact .inr ⟨u, by grind⟩
  all_goals grind [Placed, Local.made, Local.created]

/-- It is made constant there. -/
theorem Placed.constantified (hs : Placed s) {kind : Kind} {obj : Object}
    (hl : s.locals t = .constantifying kind obj) :
    Placed { s with
      status := Function.update s.status obj .constant
      locals := Function.update s.locals t .idle } := by
  constructor
  case live =>
    intro o ho
    have hne : o ≠ obj := by
      rintro rfl
      simp at ho
    obtain ⟨u, hu⟩ := hs.live o (by simpa [hne] using ho)
    exact ⟨u, by grind [Local.made, Local.created]⟩
  case constant =>
    intro o ho
    by_cases h : o = obj
    · exact ⟨kind, h ▸ hs.constantifying t kind obj hl⟩
    · exact hs.constant o (by simpa [h] using ho)
  case published =>
    intro k o ho
    by_cases h : o = obj
    · exact .inl (by grind)
    · rcases hs.published k o ho with hconstant | ⟨u, hu⟩
      · exact .inl (by grind)
      · exact .inr ⟨u, by grind⟩
  all_goals grind [Placed, Local.made, Local.created]

/-- Or it is given up by its thread. -/
theorem Placed.disposed (hs : Placed s) {kind : Kind} {obj : Object}
    (hl : s.locals t = .disposing kind obj) :
    Placed { s with
      status := (s.dispose obj kind).2
      locals := Function.update s.locals t (.getting kind) } := by
  have hlive : s.status obj = .live := hs.made t obj (by rw [hl]; rfl)
  rw [dispose_eq (hs.disposing t kind obj hl) hlive]
  constructor
  case live =>
    intro o ho
    have hne : o ≠ obj := by
      rintro rfl
      simp at ho
    obtain ⟨u, hu⟩ := hs.live o (by simpa [hne] using ho)
    exact ⟨u, by grind [Local.made, Local.created]⟩
  case constant =>
    intro o ho
    have hne : o ≠ obj := by
      rintro rfl
      simp at ho
    exact hs.constant o (by simpa [hne] using ho)
  case published =>
    intro k o ho
    rcases hs.published k o ho with hconstant | ⟨u, hu⟩
    · exact .inl (by grind)
    · exact .inr ⟨u, by grind⟩
  all_goals grind [Placed, Local.made, Local.created]

/-- Every step keeps the objects in their places. -/
theorem placed_step (hs : Placed s) (h : Steps s es s') : Placed s' := by
  cases h with
  | call kind hl => exact hs.goto (by rw [hl]; rfl) rfl (by rw [hl]; rfl) (by simp)
  | found hl hslot => exact hs.goto (by rw [hl]; rfl) rfl (by rw [hl]; rfl) (by simp)
  | missed hl => exact hs.goto (by rw [hl]; rfl) rfl (by rw [hl]; rfl) (by simp)
  | created hl hobj => exact hs.created hl hobj
  | won hl hslot => exact hs.won hl hslot
  | lost hl hkind => exact hs.goto (by rw [hl]; rfl) rfl (by rw [hl]; rfl) (by simp [hkind])
  | constantified hl => exact hs.constantified hl
  | disposed hl => exact hs.disposed hl

omit [DecidableEq Thread] in
/-- A thread goes on without a change of an object. -/
theorem Reported.stay (hr : Reported es s) (hstatus : s'.status = s.status)
    (hslot : s'.slot = s.slot) : Reported es s' := by
  refine ⟨?_, ?_, ?_, ?_⟩
  · rw [hstatus]
    exact hr.freed
  · rw [hstatus]
    exact hr.constantified
  · rw [hstatus]
    exact hr.allocated
  · rw [hslot]
    exact hr.returned

/-- Every step reports what it does. -/
theorem reported_step (hr : Reported es s) (hs : Placed s) (h : Steps s fs s') :
    Reported (es ++ fs) s' := by
  cases h with
  | call kind hl =>
    rw [List.append_nil]
    exact hr.stay rfl rfl
  | @found t kind obj hl hslot =>
    have hstay : Reported es (s.goto t .idle) := hr.stay rfl rfl
    refine ⟨fun o => ?_, fun o => ?_, fun k o ho => ?_, fun k o ho => ?_⟩
    · simpa using hstay.freed o
    · simpa using hstay.constantified o
    · exact hr.allocated k o (by simpa using ho)
    · rcases List.mem_append.mp ho with ho | ho
      · exact hr.returned k o ho
      · obtain ⟨rfl, rfl⟩ := Event.returned.inj (List.mem_singleton.mp ho)
        exact hslot
  | missed hl =>
    rw [List.append_nil]
    exact hr.stay rfl rfl
  | @created t kind obj hl hobj =>
    have hfreed := hr.freed
    have hconstant := hr.constantified
    refine ⟨fun o => ?_, fun o => ?_, fun k o ho => ?_, fun k o ho => ?_⟩
    · by_cases h : o = obj
      · subst h
        simp [hfreed, hobj]
      · simp [hfreed, h]
    · by_cases h : o = obj
      · subst h
        simp [hconstant, hobj]
      · simp [hconstant, h]
    · by_cases h : o = obj
      · simp [h]
      · simpa [h] using hr.allocated k o (by simpa [h] using ho)
    · exact hr.returned k o (by simpa using ho)
  | @won t kind obj hl hslot =>
    rw [List.append_nil]
    refine ⟨hr.freed, hr.constantified, hr.allocated, fun k o ho => ?_⟩
    have hold := hr.returned k o ho
    have hk : k ≠ kind := by
      rintro rfl
      rw [hslot] at hold
      cases hold
    simpa [hk] using hold
  | lost hl hkind =>
    rw [List.append_nil]
    exact hr.stay rfl rfl
  | @constantified t kind obj hl =>
    have hlive : s.status obj = .live := hs.made t obj (by rw [hl]; rfl)
    refine ⟨fun o => ?_, fun o => ?_, fun k o ho => ?_, fun k o ho => ?_⟩
    · by_cases h : o = obj
      · subst h
        simp [hr.freed, hlive]
      · simp [hr.freed, h]
    · by_cases h : o = obj
      · subst h
        simp [hr.constantified, hlive]
      · simp [hr.constantified, h, Ne.symm h]
    · by_cases h : o = obj
      · simp [h]
      · simpa [h] using hr.allocated k o (by simpa using ho)
    · simp only [List.mem_append, List.mem_cons, reduceCtorEq, Event.returned.injEq,
        List.not_mem_nil, or_false, false_or] at ho
      rcases ho with ho | ⟨rfl, rfl⟩
      · exact hr.returned k o ho
      · exact hs.constantifying t k o hl
  | @disposed t kind obj hl =>
    have hlive : s.status obj = .live := hs.made t obj (by rw [hl]; rfl)
    rw [dispose_eq (hs.disposing t kind obj hl) hlive]
    refine ⟨fun o => ?_, fun o => ?_, fun k o ho => ?_, fun k o ho => ?_⟩
    · by_cases h : o = obj
      · subst h
        simp [hr.freed, hlive]
      · simp [hr.freed, h, Ne.symm h]
    · by_cases h : o = obj
      · subst h
        simp [hr.constantified, hlive]
      · simp [hr.constantified, h]
    · by_cases h : o = obj
      · simp [h]
      · simpa [h] using hr.allocated k o (by simpa using ho)
    · exact hr.returned k o (by simpa using ho)

end Step

section Run

variable {s : State Thread Object} {es : List (Event Object)}

omit [DecidableEq Thread] [DecidableEq Object] in
theorem placed_init : Placed (State.init Thread Object) := by
  constructor <;> simp [State.init, Local.made, Local.created]

omit [DecidableEq Thread] in
theorem reported_init : Reported [] (State.init Thread Object) := by
  constructor <;> simp [State.init]

omit [DecidableEq Thread] [DecidableEq Object] in
/-- What is in a slot is not freed. -/
theorem status_ne_freed (hs : Placed s) {kind : Kind} {obj : Object}
    (hslot : s.slot kind = some obj) : s.status obj ≠ .freed := by
  intro hfreed
  rcases hs.published kind obj hslot with hconstant | ⟨t, ht⟩
  · rw [hfreed] at hconstant
    cases hconstant
  · have hlive := hs.made t obj (by rw [ht]; rfl)
    rw [hfreed] at hlive
    cases hlive

omit [DecidableEq Thread] [DecidableEq Object] in
/-- What is neither in a slot nor with a thread is freed. -/
theorem status_eq_freed (hs : Placed s) {obj : Object} (habsent : s.status obj ≠ .absent)
    (hslot : ∀ kind, s.slot kind ≠ some obj) (hcreated : ∀ t, (s.locals t).created ≠ some obj) :
    s.status obj = .freed := by
  cases hobj : s.status obj with
  | absent => exact absurd hobj habsent
  | live =>
    obtain ⟨t, ht⟩ := hs.live obj hobj
    cases hl : s.locals t with
    | constantifying kind obj' =>
      rw [hl] at ht
      obtain rfl := Option.some.inj ht
      exact absurd (hs.constantifying t kind obj' hl) (hslot kind)
    | _ =>
      rw [hl] at ht
      exact absurd (by rw [hl]; exact ht) (hcreated t)
  | constant =>
    obtain ⟨kind, hkind⟩ := hs.constant obj hobj
    exact absurd hkind (hslot kind)
  | freed => rfl

/-- All calls return one object for each slot, and the objects of the other threads are freed,
unless the slot of a class cluster was taken. -/
theorem createdOnce_of_run
    (hrun : RunWhile State.step Uncontended (State.init Thread Object) es s) :
    CreatedOnce es s := by
  have hinv : Placed s ∧ Reported es s := by
    refine hrun.invariant_trace (fun es s => Placed s ∧ Reported es s) ?_
      ⟨placed_init, reported_init⟩
    rintro s a es fs s' hcond ⟨hs, hr⟩ hstep
    have h := steps_of_step hcond hstep
    exact ⟨placed_step hs h, reported_step hr hs h⟩
  obtain ⟨hs, hr⟩ := hinv
  refine ⟨?_, ?_, ?_, ?_, ?_⟩
  · intro kind obj obj' hobj hobj'
    exact Option.some.inj ((hr.returned kind obj hobj).symm.trans (hr.returned kind obj' hobj'))
  · intro kind obj hobj
    have hfreed := hr.freed obj
    rw [if_neg (status_ne_freed hs (hr.returned kind obj hobj))] at hfreed
    exact List.count_eq_zero.mp hfreed
  · intro kind obj hobj hquiet
    rw [hr.constantified]
    apply if_pos
    rcases hs.published kind obj (hr.returned kind obj hobj) with hconstant | ⟨t, ht⟩
    · exact hconstant
    · exact absurd ht (hquiet t)
  · intro kind obj hobj hslot hcreated
    rw [hr.freed]
    exact if_pos (status_eq_freed hs (hr.allocated kind obj hobj) hslot hcreated)
  · intro obj
    rw [hr.freed]
    split <;> omega

end Run

/-- Two threads create a singleton at the same time. The second one frees its object. -/
theorem singleton_race_createdOnce : ∃ es, ∃ s : State Bool ℕ, CreatedOnce es s ∧
    es = [.allocated .singleton 0, .allocated .singleton 1, .constantified 0,
      .returned .singleton 0, .freed 1, .returned .singleton 0] := by
  have hrun : ∃ es, ∃ s : State Bool ℕ,
      RunWhile State.step Uncontended (State.init Bool ℕ) es s ∧
      es = [.allocated .singleton 0, .allocated .singleton 1, .constantified 0,
        .returned .singleton 0, .freed 1, .returned .singleton 0] :=
    ⟨_, _, runWhile_of_execWhile [.call true .singleton, .call false .singleton, .get true,
      .get false, .create true 0, .create false 1, .set true, .constantify true, .set false,
      .dispose false, .get false] rfl, rfl⟩
  obtain ⟨es, s, hrun, hes⟩ := hrun
  exact ⟨es, s, createdOnce_of_run hrun, hes⟩

/-- Two threads create the placeholder of a class cluster. That of the second one is leaked. -/
theorem cluster_race_leaks : ∃ es, ∃ s : State Bool ℕ,
    Run State.step (State.init Bool ℕ) es s ∧ ¬ CreatedOnce es s := by
  refine ⟨_, _, run_of_exec State.step (State.init Bool ℕ)
    [.call true .classCluster, .call false .classCluster, .get true, .get false,
      .create true 0, .create false 1, .set true, .constantify true, .set false, .dispose false,
      .get false] rfl, fun h => ?_⟩
  have hfreed := h.reclaimed .classCluster 1 (by decide) (by intro kind; cases kind <;> decide)
    (by decide)
  exact absurd hfreed (by decide)

end MulleObjC.NSObject.Once
