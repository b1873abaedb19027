import Mathlib.Data.List.Count
import Mathlib.Data.List.Nodup
import MulleObjC.Library.Machine
import MulleObjC.Library.Memory

/-!
# Root objects

A root object is retained and kept in a set of the universe until it resigns, or until the universe
releases all of them. The set does not answer if an object is a root object. That is found out by
an enumeration, which looks at the output of the enumerator after it is done. Another enumeration
lists the root objects. It counts them and does not go on behind the last one.
-/

namespace MulleObjC.NSObject.Roots

open Machine

/-- `mulle_set`, of objects that are compared by address. -/
structure MulleSet (Obj : Type*) where
  members : List Obj
  nodup : members.Nodup

namespace MulleSet

variable {Obj : Type*} [DecidableEq Obj]

/-- `mulle_set_create` -/
def create (Obj : Type*) : MulleSet Obj := ⟨[], List.nodup_nil⟩

/-- `mulle_set_insert`. It adds nothing if the object is there already. -/
def insert? (set : MulleSet Obj) (obj : Obj) : Option (MulleSet Obj) :=
  if h : obj ∈ set.members then none else some ⟨obj :: set.members, set.nodup.cons h⟩

/-- `mulle_set_remove` -/
def remove (set : MulleSet Obj) (obj : Obj) : MulleSet Obj :=
  ⟨set.members.erase obj, set.nodup.erase obj⟩

theorem insert?_eq_some {set set' : MulleSet Obj} {obj : Obj} :
    set.insert? obj = some set' ↔ obj ∉ set.members ∧ set'.members = obj :: set.members := by
  rw [insert?]
  split
  · rename_i hmem
    simp [hmem]
  · rename_i hmem
    cases set'
    simp [hmem, eq_comm]

end MulleSet

/-- `mulle_setenumerator`. It yields every member once and then returns zero. -/
structure SetEnumerator (Obj : Type*) where
  enumerate : MulleSet Obj → List Obj
  perm : ∀ set, (enumerate set).Perm set.members
  /-- The output when `mulle_setenumerator_next` has returned zero, by what it was before. -/
  output : MulleSet Obj → Option Obj → Option Obj

/-- What the root objects depend on. -/
structure Universe (Obj : Type*) where
  enumerator : SetEnumerator Obj
  /-- `_mulle_objc_object_is_constant` -/
  isConstant : Obj → Bool
  /-- The assertions of `-_becomeRootObject` and of `-_resignAsRootObject` are compiled. -/
  assertions : Bool

/-- What happens to an object. -/
inductive Event (Obj : Type*)
  | retained (obj : Obj)
  | inserted (obj : Obj)
  | removed (obj : Obj)
  | autoreleased (obj : Obj)
  /-- By `_mulle_objc_universefoundationinfo_release_rootobjects` -/
  | released (obj : Obj)
  /-- Added to the parent autorelease pool. -/
  | pooled (obj : Obj)
  /-- What `-_isRootObject` returned. -/
  | answered (obj : Obj) (yes : Bool)
  deriving DecidableEq

/-- A message to an object, or the end of the universe. -/
inductive Act (Obj : Type*)
  | isRootObject (obj : Obj)
  | becomeRootObject (obj : Obj)
  | resignAsRootObject (obj : Obj)
  | pushToParentAutoreleasePool (obj : Obj) (hasParent : Bool)
  /-- `_mulle_objc_universefoundationinfo_release_rootobjects` and `mulle_set_destroy` -/
  | releaseRootObjects

/-- `config->object.roots`, until it is destroyed. -/
abbrev State (Obj : Type*) := Option (MulleSet Obj)

variable {Obj : Type*} [DecidableEq Obj]

/-- The `while` loop of `-_isRootObject`. -/
def search (self : Obj) (output : Option Obj → Option Obj) : List Obj → Option Obj → Option Obj
  | [], obj => output obj
  | o :: os, _ => if o = self then some o else search self output os (some o)

namespace Universe

variable (u : Universe Obj)

/-- `-_isRootObject` -/
def isRootObject (roots : MulleSet Obj) (self : Obj) : Bool :=
  (search self (u.enumerator.output roots) (u.enumerator.enumerate roots) none).isSome

/-- `-_becomeRootObject` -/
def becomeRootObject (roots : MulleSet Obj) (self : Obj) : Option (List (Event Obj) × State Obj) :=
  if u.isConstant self then some ([], some roots)
  else if u.assertions && u.isRootObject roots self then none
  else (roots.insert? self).map fun roots => ([.retained self, .inserted self], some roots)

/-- `-_resignAsRootObject`. It is asserted that the object is there. Without the assertion, nothing
is removed if it is not, but the object is autoreleased all the same. -/
def resignAsRootObject (roots : MulleSet Obj) (self : Obj) :
    Option (List (Event Obj) × State Obj) :=
  if u.isConstant self then some ([], some roots)
  else if self ∈ roots.members then
    some ([.removed self, .autoreleased self], some (roots.remove self))
  else if u.assertions then none
  else some ([.autoreleased self], some (roots.remove self))

/-- `-_pushToParentAutoreleasePool` -/
def pushToParentAutoreleasePool (roots : MulleSet Obj) (self : Obj) (hasParent : Bool) :
    Option (List (Event Obj) × State Obj) :=
  if hasParent then some ([.retained self, .pooled self], some roots)
  else u.becomeRootObject roots self

/-- One message. -/
def step : State Obj → Act Obj → Option (List (Event Obj) × State Obj)
  | none, _ => none
  | some roots, .isRootObject obj =>
    some ([.answered obj (u.isRootObject roots obj)], some roots)
  | some roots, .becomeRootObject obj => u.becomeRootObject roots obj
  | some roots, .resignAsRootObject obj => u.resignAsRootObject roots obj
  | some roots, .pushToParentAutoreleasePool obj hasParent =>
    u.pushToParentAutoreleasePool roots obj hasParent
  | some roots, .releaseRootObjects =>
    some ((u.enumerator.enumerate roots).map .released, none)

/-- If `-_isRootObject` is sent to an object that is not in the set, the output of the enumerator
is null in the end. -/
def answerable : State Obj → Act Obj → Bool
  | some roots, .isRootObject obj =>
    decide (obj ∈ roots.members) ||
      (u.enumerator.output roots (u.enumerator.enumerate roots).getLast?).isNone
  | _, _ => true

/-- As a condition. -/
abbrev Answerable (s : State Obj) (a : Act Obj) : Prop := u.answerable s a = true

/-- If `-_resignAsRootObject` is sent to an object that is not constant, it is in the set. -/
def resignable : State Obj → Act Obj → Bool
  | some roots, .resignAsRootObject obj => u.isConstant obj || decide (obj ∈ roots.members)
  | _, _ => true

/-- Both conditions. -/
abbrev Proper (s : State Obj) (a : Act Obj) : Prop :=
  u.Answerable s a ∧ u.resignable s a = true

end Universe

/-- The object was inserted more often than it was removed or released. -/
def Registered (es : List (Event Obj)) (obj : Obj) : Prop :=
  es.count (.removed obj) + es.count (.released obj) < es.count (.inserted obj)

/-- Every answer is right at its time. -/
def Answers (es : List (Event Obj)) : Prop :=
  ∀ fs obj yes, fs ++ [.answered obj yes] <+: es → (yes = true ↔ Registered fs obj)

/-- The members of the set. -/
def State.roots : State Obj → List Obj
  | some roots => roots.members
  | none => []

/-- The references that the set has taken, and the registrations that are left. -/
structure Counted (es : List (Event Obj)) (s : State Obj) : Prop where
  /-- A registration holds one reference. -/
  retained : ∀ obj, es.count (.retained obj) = es.count (.inserted obj) + es.count (.pooled obj)
  /-- What has not resigned and was not released by the universe is in the set. -/
  inserted : ∀ obj, es.count (.inserted obj) =
    es.count (.removed obj) + es.count (.released obj) + s.roots.count obj
  once : ∀ obj, s.roots.count obj ≤ 1

/-- The references of the root objects. -/
structure Balanced (es : List (Event Obj)) (s : State Obj) : Prop extends Counted es s where
  /-- Resigning gives back one reference. -/
  autoreleased : ∀ obj, es.count (.autoreleased obj) = es.count (.removed obj)

/-- The registry answers right and is balanced. -/
structure Kept (es : List (Event Obj)) (s : State Obj) : Prop where
  answers : Answers es
  balanced : Balanced es s

/-- What a step can do to the set. -/
inductive Outcome (u : Universe Obj) (roots : MulleSet Obj) (a : Act Obj) :
    List (Event Obj) → State Obj → Prop
  | answered {obj : Obj} (ha : a = .isRootObject obj) :
      Outcome u roots a [.answered obj (u.isRootObject roots obj)] (some roots)
  | unchanged : Outcome u roots a [] (some roots)
  | became {obj : Obj} {roots' : MulleSet Obj} (hobj : obj ∉ roots.members)
      (hmembers : roots'.members = obj :: roots.members) :
      Outcome u roots a [.retained obj, .inserted obj] (some roots')
  | resigned {obj : Obj} (hobj : obj ∈ roots.members) :
      Outcome u roots a [.removed obj, .autoreleased obj] (some (roots.remove obj))
  | gaveBack {obj : Obj} (ha : a = .resignAsRootObject obj) (hconstant : u.isConstant obj = false)
      (hobj : obj ∉ roots.members) : Outcome u roots a [.autoreleased obj] (some roots)
  | pooled (obj : Obj) : Outcome u roots a [.retained obj, .pooled obj] (some roots)
  | released : Outcome u roots a ((u.enumerator.enumerate roots).map .released) none

section Step

variable {u : Universe Obj} {roots : MulleSet Obj} {s s' : State Obj} {a : Act Obj}
  {es fs : List (Event Obj)} {obj : Obj}

theorem outcome_of_become (h : u.becomeRootObject roots obj = some (fs, s')) :
    Outcome u roots a fs s' := by
  rw [Universe.becomeRootObject] at h
  split at h
  · obtain ⟨rfl, rfl⟩ := Prod.mk.inj (Option.some.inj h)
    exact .unchanged
  · split at h
    · cases h
    · obtain ⟨roots', hinsert, hr⟩ := Option.map_eq_some_iff.mp h
      obtain ⟨rfl, rfl⟩ := Prod.mk.inj hr
      obtain ⟨hobj, hmembers⟩ := MulleSet.insert?_eq_some.mp hinsert
      exact .became hobj hmembers

theorem MulleSet.remove_of_notMem (hobj : obj ∉ roots.members) : roots.remove obj = roots := by
  cases roots
  simp only [remove, mk.injEq]
  exact List.erase_of_not_mem hobj

theorem outcome_of_resign (ha : a = .resignAsRootObject obj)
    (h : u.resignAsRootObject roots obj = some (fs, s')) : Outcome u roots a fs s' := by
  rw [Universe.resignAsRootObject] at h
  split at h
  · obtain ⟨rfl, rfl⟩ := Prod.mk.inj (Option.some.inj h)
    exact .unchanged
  · rename_i hconstant
    split at h
    · rename_i hobj
      obtain ⟨rfl, rfl⟩ := Prod.mk.inj (Option.some.inj h)
      exact .resigned hobj
    · rename_i hobj
      split at h
      · cases h
      · obtain ⟨rfl, rfl⟩ := Prod.mk.inj (Option.some.inj h)
        rw [MulleSet.remove_of_notMem hobj]
        exact .gaveBack ha (by simpa using hconstant) hobj

theorem outcome_of_step (h : u.step (some roots) a = some (fs, s')) : Outcome u roots a fs s' := by
  cases a with
  | isRootObject obj =>
    obtain ⟨rfl, rfl⟩ := Prod.mk.inj (Option.some.inj h)
    exact .answered rfl
  | becomeRootObject obj => exact outcome_of_become h
  | resignAsRootObject obj => exact outcome_of_resign rfl h
  | pushToParentAutoreleasePool obj hasParent =>
    cases hasParent with
    | false => exact outcome_of_become h
    | true =>
      obtain ⟨rfl, rfl⟩ := Prod.mk.inj (Option.some.inj h)
      exact .pooled obj
  | releaseRootObjects =>
    obtain ⟨rfl, rfl⟩ := Prod.mk.inj (Option.some.inj h)
    exact .released

theorem count_append_pair (es : List (Event Obj)) (d e f : Event Obj) :
    (es ++ [d, e]).count f =
      es.count f + ((if d = f then 1 else 0) + if e = f then 1 else 0) := by
  simp only [List.count_append, List.count_cons, List.count_nil, beq_iff_eq]
  omega

theorem counted_create : Counted [] (some (.create Obj) : State Obj) :=
  ⟨fun _ => rfl, fun _ => rfl, fun _ => Nat.zero_le 1⟩

theorem Counted.registered_iff (hs : Counted es s) : Registered es obj ↔ obj ∈ s.roots := by
  have hinserted := hs.inserted obj
  rw [Registered, ← List.count_pos_iff]
  omega

/-- A new root object is retained. -/
theorem Counted.became (hs : Counted es (some roots)) {roots' : MulleSet Obj}
    (hobj : obj ∉ roots.members) (hmembers : roots'.members = obj :: roots.members) :
    Counted (es ++ [.retained obj, .inserted obj]) (some roots') := by
  have hcount (o : Obj) : roots'.members.count o =
      roots.members.count o + if obj = o then 1 else 0 := by
    simp [hmembers, List.count_cons]
  refine ⟨fun o => ?_, fun o => ?_, fun o => ?_⟩
  · have h := hs.retained o
    simp only [count_append_pair, reduceCtorEq, Event.retained.injEq, Event.inserted.injEq,
      if_false]
    omega
  · have h := hs.inserted o
    simp only [count_append_pair, reduceCtorEq, Event.inserted.injEq, if_false, State.roots,
      hcount] at h ⊢
    omega
  · simp only [State.roots, hmembers]
    exact List.nodup_iff_count_le_one.mp (roots.nodup.cons hobj) o

/-- One that resigns is out of the set. -/
theorem Counted.resigned (hs : Counted es (some roots)) (hobj : obj ∈ roots.members) :
    Counted (es ++ [.removed obj, .autoreleased obj]) (some (roots.remove obj)) := by
  have hcount (o : Obj) : (roots.remove obj).members.count o + (if obj = o then 1 else 0) =
      roots.members.count o := by
    rw [(List.perm_cons_erase hobj).count_eq o, List.count_cons]
    simp [MulleSet.remove]
  refine ⟨fun o => ?_, fun o => ?_, fun o => ?_⟩
  · simpa [List.count_append, List.count_cons] using hs.retained o
  · have h := hs.inserted o
    have ho := hcount o
    simp only [count_append_pair, reduceCtorEq, Event.removed.injEq, if_false, State.roots] at h ⊢
    omega
  · exact List.nodup_iff_count_le_one.mp (roots.remove obj).nodup o

/-- The parent pool has a reference of its own. -/
theorem Counted.pooled (hs : Counted es s) (obj : Obj) :
    Counted (es ++ [.retained obj, .pooled obj]) s := by
  refine ⟨fun o => ?_, fun o => ?_, hs.once⟩
  · have h := hs.retained o
    simp only [count_append_pair, reduceCtorEq, Event.retained.injEq, Event.pooled.injEq,
      if_false]
    omega
  · simpa [List.count_append, List.count_cons] using hs.inserted o

/-- Answers and autoreleases take nothing and leave the set alone. -/
theorem Counted.concat (hs : Counted es s) {e : Event Obj}
    (he : (∃ o yes, e = .answered o yes) ∨ ∃ o, e = .autoreleased o) : Counted (es ++ [e]) s := by
  refine ⟨fun o => ?_, fun o => ?_, hs.once⟩
  · rcases he with ⟨obj, yes, rfl⟩ | ⟨obj, rfl⟩
    all_goals simpa [List.count_append, List.count_cons] using hs.retained o
  · rcases he with ⟨obj, yes, rfl⟩ | ⟨obj, rfl⟩
    all_goals simpa [List.count_append, List.count_cons] using hs.inserted o

/-- The release of all root objects tells of nothing else. -/
theorem count_map_released (u : Universe Obj) (roots : MulleSet Obj) {e : Event Obj}
    (he : ∀ o, e ≠ .released o) :
    ((u.enumerator.enumerate roots).map .released).count e = 0 := by
  refine List.count_eq_zero.mpr fun hmem => ?_
  obtain ⟨o, -, rfl⟩ := List.mem_map.mp hmem
  exact he o rfl

/-- In the end the universe gives back the references of all root objects. -/
theorem Counted.released (hs : Counted es (some roots)) (u : Universe Obj) :
    Counted (es ++ (u.enumerator.enumerate roots).map .released) none := by
  have hreleased (o : Obj) : ((u.enumerator.enumerate roots).map .released).count
      (.released o : Event Obj) = roots.members.count o := by
    rw [List.count_map_of_injective _ _ fun _ _ => Event.released.inj]
    exact (u.enumerator.perm roots).count_eq o
  refine ⟨fun o => ?_, fun o => ?_, fun o => Nat.zero_le 1⟩
  · simpa [List.count_append, count_map_released] using hs.retained o
  · have h := hs.inserted o
    simp [List.count_append, count_map_released, hreleased, State.roots] at h ⊢
    omega

/-- Every step keeps the set and its references together. -/
theorem Counted.outcome (hs : Counted es (some roots)) (h : Outcome u roots a fs s') :
    Counted (es ++ fs) s' := by
  cases h with
  | answered _ => exact hs.concat (.inl ⟨_, _, rfl⟩)
  | unchanged =>
    rw [List.append_nil]
    exact hs
  | became hobj hmembers => exact hs.became hobj hmembers
  | resigned hobj => exact hs.resigned hobj
  | gaveBack _ _ _ => exact hs.concat (.inr ⟨_, rfl⟩)
  | pooled obj => exact hs.pooled obj
  | released => exact hs.released u

/-- What a step autoreleases it has removed from the set before, or it was not there. -/
theorem Outcome.autoreleased_eq (h : Outcome u roots a fs s') :
    (∃ obj, a = .resignAsRootObject obj ∧ u.isConstant obj = false ∧ obj ∉ roots.members ∧
      fs = [.autoreleased obj]) ∨
    ∀ obj, fs.count (.autoreleased obj) = fs.count (.removed obj) := by
  cases h with
  | gaveBack ha hconstant hobj => exact .inl ⟨_, ha, hconstant, hobj, rfl⟩
  | answered _ => exact .inr fun obj => by simp
  | unchanged => exact .inr fun obj => rfl
  | became _ _ => exact .inr fun obj => by simp
  | resigned _ =>
    refine .inr fun o => ?_
    simp only [List.count_cons, List.count_nil, beq_iff_eq, reduceCtorEq,
      Event.removed.injEq, Event.autoreleased.injEq, if_false]
    omega
  | pooled _ => exact .inr fun obj => by simp
  | released => exact .inr fun obj => by simp [count_map_released]

end Step

/-- The search finds the object, or what is left in the output. -/
theorem search_eq (self : Obj) (output : Option Obj → Option Obj) (os : List Obj)
    (obj : Option Obj) : search self output os obj =
      if self ∈ os then some self else output (os.getLast?.or obj) := by
  induction os generalizing obj with
  | nil => rfl
  | cons o os ih =>
    rw [search]
    split
    · rename_i heq
      rw [if_pos (heq ▸ List.mem_cons_self), heq]
    · rename_i hne
      have hlast : (o :: os).getLast?.or obj = os.getLast?.or (some o) := by
        simp [List.getLast?_cons]
      have hmem : self ∈ o :: os ↔ self ∈ os := by
        simp [Ne.symm hne]
      rw [ih, hlast]
      simp only [hmem]

namespace Universe

variable (u : Universe Obj)

theorem isRootObject_eq (roots : MulleSet Obj) (obj : Obj) : u.isRootObject roots obj =
    (decide (obj ∈ roots.members) ||
      (u.enumerator.output roots (u.enumerator.enumerate roots).getLast?).isSome) := by
  rw [isRootObject, search_eq, Option.or_none]
  simp only [(u.enumerator.perm roots).mem_iff]
  split
  · rename_i hmem
    simp [hmem]
  · rename_i hmem
    simp [hmem]

/-- An answer is right exactly under the condition. -/
theorem isRootObject_iff (roots : MulleSet Obj) (obj : Obj) :
    (u.isRootObject roots obj = true ↔ obj ∈ roots.members) ↔
      u.Answerable (some roots) (.isRootObject obj) := by
  rw [isRootObject_eq, Answerable, answerable]
  by_cases hmem : obj ∈ roots.members
  · simp [hmem]
  · simp [hmem]

end Universe

section Answers

variable {es fs : List (Event Obj)} {e : Event Obj}

theorem Answers.concat (hes : Answers es)
    (he : ∀ obj yes, e = .answered obj yes → (yes = true ↔ Registered es obj)) :
    Answers (es ++ [e]) := by
  intro fs obj yes hfs
  rcases List.prefix_concat_iff.mp hfs with heq | hfs
  · obtain ⟨rfl, hlast⟩ := List.append_inj' heq rfl
    exact he obj yes (List.cons.inj hlast).1.symm
  · exact hes fs obj yes hfs

theorem Answers.append (hes : Answers es) (hfs : ∀ obj yes, .answered obj yes ∉ fs) :
    Answers (es ++ fs) := by
  induction fs generalizing es with
  | nil =>
    rw [List.append_nil]
    exact hes
  | cons e fs ih =>
    rw [← List.singleton_append, ← List.append_assoc]
    apply ih
    · apply hes.concat
      rintro obj yes rfl
      exact absurd List.mem_cons_self (hfs obj yes)
    · exact fun obj yes hmem => hfs obj yes (List.mem_cons_of_mem e hmem)

theorem Answers.of_append (h : Answers (es ++ fs)) : Answers es :=
  fun ds obj yes hds => h ds obj yes (hds.trans (List.prefix_append es fs))

end Answers

section Run

variable {u : Universe Obj} {s s' : State Obj} {a : Act Obj} {es fs : List (Event Obj)}

theorem Counted.step (hs : Counted es s) (h : u.step s a = some (fs, s')) :
    Counted (es ++ fs) s' := by
  cases s with
  | none => cases h
  | some roots => exact hs.outcome (outcome_of_step h)

/-- Only an object that is not in the set is autoreleased without being removed. -/
theorem autoreleased_eq_of_step (h : u.step s a = some (fs, s')) :
    u.resignable s a = true → ∀ obj, fs.count (.autoreleased obj) = fs.count (.removed obj) := by
  intro hresign
  cases s with
  | none => cases h
  | some roots =>
    rcases (outcome_of_step h).autoreleased_eq with ⟨obj, rfl, hconstant, hobj, -⟩ | heq
    · simp [Universe.resignable, hconstant, hobj] at hresign
    · exact heq

/-- Nothing is removed from the set without being autoreleased. -/
theorem removed_le_of_step (h : u.step s a = some (fs, s')) (obj : Obj) :
    fs.count (.removed obj) ≤ fs.count (.autoreleased obj) := by
  cases s with
  | none => cases h
  | some roots =>
    rcases (outcome_of_step h).autoreleased_eq with ⟨o, -, -, -, rfl⟩ | heq
    · simp
    · exact (heq obj).ge

/-- Under the conditions, a step keeps the answers right and the references balanced. -/
theorem Kept.step (hs : Kept es s) (hcond : u.Proper s a) (h : u.step s a = some (fs, s')) :
    Kept (es ++ fs) s' := by
  have hbalanced : Balanced (es ++ fs) s' := by
    refine ⟨hs.balanced.toCounted.step h, fun obj => ?_⟩
    rw [List.count_append, List.count_append, hs.balanced.autoreleased,
      autoreleased_eq_of_step h hcond.2]
  refine ⟨?_, hbalanced⟩
  cases s with
  | none => cases h
  | some roots =>
    cases outcome_of_step h with
    | @answered obj ha =>
      subst ha
      apply hs.answers.concat
      rintro _ _ ⟨rfl, rfl⟩
      rw [hs.balanced.toCounted.registered_iff]
      exact (u.isRootObject_iff roots obj).mpr hcond.1
    | unchanged => exact hs.answers.append (by simp)
    | became => exact hs.answers.append (by simp)
    | resigned => exact hs.answers.append (by simp)
    | gaveBack => exact hs.answers.append (by simp)
    | pooled => exact hs.answers.append (by simp)
    | released => exact hs.answers.append (by simp)

/-- A right answer was given under the condition. -/
theorem answerable_of_answers (hs : Counted es s) (h : u.step s a = some (fs, s'))
    (hanswers : Answers (es ++ fs)) : u.Answerable s a := by
  cases s with
  | none => cases h
  | some roots =>
    cases a with
    | isRootObject obj =>
      obtain ⟨rfl, rfl⟩ := Prod.mk.inj (Option.some.inj h)
      apply (u.isRootObject_iff roots obj).mp
      rw [hanswers es obj _ (List.prefix_refl _), hs.registered_iff]
      rfl
    | becomeRootObject obj => rfl
    | resignAsRootObject obj => rfl
    | pushToParentAutoreleasePool obj hasParent => rfl
    | releaseRootObjects => rfl

/-- An object for which nothing was autoreleased but what was removed has resigned from the set. -/
theorem resignable_of_autoreleased (h : u.step s a = some (fs, s'))
    (heq : ∀ obj, fs.count (.autoreleased obj) = fs.count (.removed obj)) :
    u.resignable s a = true := by
  cases s with
  | none => cases h
  | some roots =>
    cases a with
    | resignAsRootObject obj =>
      by_contra hresign
      simp only [Universe.resignable, Bool.or_eq_true, decide_eq_true_eq, not_or] at hresign
      rw [Universe.step, Universe.resignAsRootObject, if_neg hresign.1, if_neg hresign.2] at h
      obtain ⟨-, h⟩ := Option.ite_none_left_eq_some.mp h
      obtain ⟨rfl, rfl⟩ := Prod.mk.inj (Option.some.inj h)
      simpa using heq obj
    | isRootObject obj => rfl
    | becomeRootObject obj => rfl
    | pushToParentAutoreleasePool obj hasParent => rfl
    | releaseRootObjects => rfl

/-- What is removed along a run is autoreleased. -/
theorem removed_le_of_run (hrun : Run u.step s es s') (obj : Obj) :
    es.count (.removed obj) ≤ es.count (.autoreleased obj) := by
  refine hrun.invariant_trace
    (fun fs _ => fs.count (.removed obj) ≤ fs.count (.autoreleased obj)) ?_ le_rfl
  intro s a es fs s' _ hes hstep
  have hfs := removed_le_of_step hstep obj
  rw [List.count_append, List.count_append]
  omega

theorem runWhile_of_kept (hs : Counted [] s) (hrun : Run u.step s es s') (hkept : Kept es s') :
    RunWhile u.step u.Proper s es s' := by
  induction hrun with
  | refl => exact .refl _
  | @tail _ _ es fs a hrun _ hlast ih =>
    have hcounted := hrun.invariant_trace Counted (fun _ => Counted.step) hs
    -- neither the run so far nor the last step has autoreleased more than was removed
    have heq (obj : Obj) : es.count (.autoreleased obj) = es.count (.removed obj) ∧
        fs.count (.autoreleased obj) = fs.count (.removed obj) := by
      have hall := hkept.balanced.autoreleased obj
      have hes := removed_le_of_run hrun obj
      have hfs := removed_le_of_step hlast obj
      rw [List.count_append, List.count_append] at hall
      omega
    have hbefore := ih ⟨hkept.answers.of_append, hcounted, fun obj => (heq obj).1⟩
    exact hbefore.tail a ⟨answerable_of_answers hcounted hlast hkept.answers,
      resignable_of_autoreleased hlast fun obj => (heq obj).2⟩ hlast

/-- Whatever is sent to the objects, the registry is kept if and only if only root objects
resigned, and the output of the enumerator was null in the end whenever an object that was not a
root object was asked. -/
theorem kept_iff_of_run (u : Universe Obj) (hrun : Run u.step (some (.create Obj)) es s) :
    Kept es s ↔ RunWhile u.step u.Proper (some (.create Obj)) es s := by
  constructor
  · exact runWhile_of_kept counted_create hrun
  · intro hwhile
    have hinit : Kept [] (some (.create Obj)) :=
      ⟨fun fs obj yes hfs => by simp at hfs, counted_create, fun _ => rfl⟩
    exact hwhile.invariant_trace Kept (fun hcond hs hstep => hs.step hcond hstep) hinit

/-- The enumerator does not write to its output in the end. -/
def leaving : Universe ℕ where
  enumerator := ⟨MulleSet.members, fun _ => .refl _, fun _ obj => obj⟩
  isConstant _ := false
  assertions := false

/-- Two root objects, one of which resigns. -/
theorem leaving_kept : ∃ es, Kept es none ∧ Event.released 2 ∈ es ∧
    Event.answered 1 false ∈ es ∧ Event.answered 2 true ∈ es :=
  ⟨_, (kept_iff_of_run leaving (run_of_exec leaving.step (some (.create ℕ))
      [.isRootObject 1, .becomeRootObject 1, .pushToParentAutoreleasePool 2 false,
        .isRootObject 2, .resignAsRootObject 1, .releaseRootObjects] rfl)).mpr
    (runWhile_of_execWhile [.isRootObject 1, .becomeRootObject 1,
      .pushToParentAutoreleasePool 2 false, .isRootObject 2, .resignAsRootObject 1,
      .releaseRootObjects] rfl), by decide⟩

/-- With another root object, any object is taken for a root object. -/
theorem leaving_not_kept : ∃ es s, Run leaving.step (some (.create ℕ)) es s ∧ ¬Kept es s := by
  refine ⟨_, _, run_of_exec leaving.step _ [.becomeRootObject 1, .isRootObject 2] rfl, ?_⟩
  intro hkept
  have hanswer := hkept.answers [.retained 1, .inserted 1] 2 true (List.prefix_refl _)
  simp [Registered] at hanswer

end Run

/-- The `while` loop of `+_getRootObjects:maxCount:`, over what the enumerator has left. It is
asserted that there is an object. -/
def fill (sentinel : ℕ) : List Obj → ℕ → Memory (Option Obj) → Option (Memory (Option Obj))
  | [], buf, memory => if buf < sentinel then none else some memory
  | o :: os, buf, memory =>
    if buf < sentinel then fill sentinel os (buf + 1) (memory.write buf [some o])
    else some memory

/-- `+_getRootObjects:maxCount:` -/
def Universe.getRootObjects (u : Universe Obj) (roots : MulleSet Obj)
    (memory : Memory (Option Obj)) (buf maxCount : ℕ) : Option (ℕ × Memory (Option Obj)) :=
  let count := roots.members.length
  let sentinel := buf + if count < maxCount then count else maxCount
  (fill sentinel (u.enumerator.enumerate roots) buf memory).map (count, ·)

section Listing

omit [DecidableEq Obj] in
/-- The loop stores as many objects as there is room for. -/
theorem fill_eq (os : List Obj) (buf n : ℕ) (memory : Memory (Option Obj)) (hn : n ≤ os.length) :
    fill (buf + n) os buf memory = some (memory.write buf ((os.take n).map some)) := by
  induction os generalizing buf n memory with
  | nil =>
    obtain rfl : n = 0 := Nat.le_zero.mp hn
    simp [fill]
  | cons o os ih =>
    cases n with
    | zero => simp [fill]
    | succ n =>
      have hwrite : (memory.write buf [some o]).write (buf + 1) ((os.take n).map some) =
          memory.write buf (some o :: (os.take n).map some) := Memory.write_append
      have hsentinel : buf + (n + 1) = buf + 1 + n := by omega
      rw [fill, if_pos (by omega), hsentinel, ih _ _ _ (Nat.le_of_succ_le_succ hn), hwrite]
      rfl

/-- Whatever was sent to the objects, the number of the objects that are registered is returned,
and as many of them are stored as there is room for. Nothing else is written. -/
theorem getRootObjects_of_run (u : Universe Obj) {es : List (Event Obj)} {roots : MulleSet Obj}
    (hrun : Run u.step (some (.create Obj)) es (some roots)) (memory : Memory (Option Obj))
    (buf maxCount : ℕ) :
    ∃ found : List Obj, found.Nodup ∧ (∀ obj, obj ∈ found ↔ Registered es obj) ∧
      u.getRootObjects roots memory buf maxCount =
        some (found.length, memory.write buf ((found.take maxCount).map some)) := by
  have hperm := u.enumerator.perm roots
  have hcounted : Counted es (some roots) :=
    hrun.invariant_trace Counted (fun _ => Counted.step) counted_create
  refine ⟨u.enumerator.enumerate roots, hperm.nodup_iff.mpr roots.nodup, fun obj => ?_, ?_⟩
  · rw [hcounted.registered_iff, hperm.mem_iff]
    rfl
  · simp only [Universe.getRootObjects, ← hperm.length_eq]
    split
    · next hless =>
      rw [fill_eq _ _ _ _ le_rfl, List.take_length, List.take_of_length_le hless.le]
      rfl
    · next hless =>
      rw [fill_eq _ _ _ _ (Nat.le_of_not_lt hless)]
      rfl

/-- Two root objects are left when one has resigned, and there is room for one of them. -/
theorem leaving_listed : ∃ roots, ∃ found : List ℕ, 1 ∉ found ∧ 2 ∈ found ∧ 3 ∈ found ∧
    leaving.getRootObjects roots (fun _ => none) 8 1 =
      some (found.length, Memory.write (fun _ => none) 8 ((found.take 1).map some)) := by
  obtain ⟨found, -, hfound, hlist⟩ := getRootObjects_of_run leaving
    (run_of_exec leaving.step (some (.create ℕ))
      [.becomeRootObject 1, .becomeRootObject 2, .resignAsRootObject 1, .becomeRootObject 3] rfl)
    (fun _ => none) 8 1
  refine ⟨_, found, ?_, ?_, ?_, hlist⟩
  all_goals
    rw [hfound]
    unfold Registered
    decide

end Listing

end MulleObjC.NSObject.Roots
