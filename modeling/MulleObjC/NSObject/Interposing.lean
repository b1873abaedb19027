import MulleObjC.Library.Forest
import Mathlib.Data.Fintype.Option
import Mathlib.Data.Fintype.Pi

/-!
# Interposing a class

`MulleObjCClassInterposeBeforeClass` puts a class between another one and its superclass.
A class and its metaclass each have a superclass and the id of it, so that four links and
four ids have to fit together. The id of the metaclass is missed: it is written to the
interposed class.
-/

namespace MulleObjC.NSObject

open Forest

/-- `struct _mulle_objc_class`, the base of a class and of its metaclass. -/
inductive Node (Class : Type*)
  | infraclass (c : Class)
  | metaclass (c : Class)
  deriving DecidableEq

/-- The class of a class pair. -/
def Node.pair {Class : Type*} : Node Class → Class
  | infraclass c => c
  | metaclass c => c

/-- What interposing uses of the runtime. -/
structure Runtime (Class : Type*) where
  /-- A metaclass has the `classid` of its class. -/
  classid : Class → ℕ
  name : Class → String
  hasIvars : Class → Bool
  /-- The classes of the universe. -/
  classes : List Class
  /-- `mulle_objc_infraclass_is_subclass`, for the superclasses at that time. -/
  isSubclass : (Class → Option Class) → Class → Class → Bool
  classid_injective : Function.Injective classid
  mem_classes : ∀ c, c ∈ classes
  isSubclass_iff : ∀ superclass, Ends superclass → ∀ c d,
    isSubclass superclass c d = true ↔ Below superclass c d

/-- What interposing changes of the runtime. -/
structure Universe (Class : Type*) where
  superclass : Node Class → Option (Node Class)
  superclassid : Node Class → ℕ

/-- What a call raises or does. -/
structure Outcome (Class : Type*) where
  exception : Option String := none
  after : Universe Class
  /-- The classes whose caches are invalidated. -/
  invalidated : List (Node Class) := []

variable {Class : Type*}

/-- `_mulle_objc_infraclass_get_superclass` -/
def Universe.infraSuperclass (u : Universe Class) (c : Class) : Option Class :=
  match u.superclass (.infraclass c) with
  | some (.infraclass d) => some d
  | _ => none

/-- `interpose_callback` -/
def interposeCallback (runtime : Runtime Class) (u : Universe Class) (subclass infra : Class) :
    List (Node Class) :=
  if runtime.isSubclass u.infraSuperclass infra subclass then
    [.infraclass infra, .metaclass infra]
  else []

/-- `MulleObjCThrowInternalInconsistencyExceptionUTF8String` -/
def Universe.throwInconsistency (u : Universe Class) (reason : String) : Outcome Class :=
  { exception := some reason, after := u }

variable [DecidableEq Class]

def Universe.setSuperclass (u : Universe Class) (n m : Node Class) : Universe Class :=
  { u with superclass := Function.update u.superclass n (some m) }

def Universe.setSuperclassid (u : Universe Class) (n : Node Class) (id : ℕ) : Universe Class :=
  { u with superclassid := Function.update u.superclassid n id }

/-- The links and ids that are written. -/
def Universe.link (u : Universe Class) (runtime : Runtime Class) (infra subInfra : Class) :
    Universe Class :=
  let u := u.setSuperclass (.infraclass subInfra) (.infraclass infra)
  let u := u.setSuperclassid (.infraclass subInfra) (runtime.classid infra)
  -- `super_meta` is the metaclass of `infra`.
  let u := u.setSuperclass (.metaclass subInfra) (.metaclass infra)
  u.setSuperclassid (.infraclass infra) (runtime.classid (Node.metaclass infra).pair)

/-- `MulleObjCClassInterposeBeforeClass` -/
def Universe.interposeBeforeClass (u : Universe Class) (runtime : Runtime Class) :
    Option Class → Option Class → Outcome Class
  | some infra, some subInfra =>
    match u.infraSuperclass subInfra with
    | none => u.throwInconsistency
        ("the class \"" ++ runtime.name subInfra ++ "\" to interpose is a root class")
    | some superInfra =>
      if some superInfra ≠ u.infraSuperclass infra then
        u.throwInconsistency
          ("the class \"" ++ runtime.name subInfra ++ "\" to interpose has a different superclass")
      else if runtime.hasIvars infra then
        u.throwInconsistency
          ("your interposing class \"" ++ runtime.name infra ++ "\" has instance variables")
      else
        let linked := u.link runtime infra subInfra
        { after := linked
          invalidated := runtime.classes.flatMap (interposeCallback runtime linked subInfra) }
  | _, _ => { after := u }

omit [DecidableEq Class]

/-- The class forest is sound. -/
structure Universe.Sound (u : Universe Class) (runtime : Runtime Class) : Prop where
  acyclic : Ends u.superclass
  infra_superclass : ∀ c n, u.superclass (.infraclass c) = some n → ∃ d, n = .infraclass d
  meta_superclass : ∀ c d, u.superclass (.infraclass c) = some (.infraclass d) →
    u.superclass (.metaclass c) = some (.metaclass d)
  superclassid : ∀ n m, u.superclass n = some m →
    u.superclassid n = runtime.classid m.pair

/-- The links after interposing, and the caches that are invalidated. -/
structure Linked (u : Universe Class) (infra subInfra : Class) (o : Outcome Class) : Prop where
  acyclic : Ends o.after.superclass
  superclass_subInfra : o.after.superclass (.infraclass subInfra) = some (.infraclass infra)
  superclass_infra : o.after.superclass (.infraclass infra) = u.superclass (.infraclass subInfra)
  meta_subInfra : o.after.superclass (.metaclass subInfra) = some (.metaclass infra)
  meta_infra : o.after.superclass (.metaclass infra) = u.superclass (.metaclass subInfra)
  others : ∀ n : Node Class, n.pair ≠ infra → n.pair ≠ subInfra →
    o.after.superclass n = u.superclass n
  invalidated : ∀ n, n ∈ o.invalidated ↔ Below u.infraSuperclass n.pair subInfra

/-- A sound interposing. -/
structure Interposed (runtime : Runtime Class) (u : Universe Class) (infra subInfra : Class)
    (o : Outcome Class) : Prop extends Linked u infra subInfra o where
  superclassid : ∀ n m, o.after.superclass n = some m →
    o.after.superclassid n = runtime.classid m.pair

/-- An exception changes nothing, and otherwise the class is interposed. -/
def KeepsHierarchy (runtime : Runtime Class) (u : Universe Class) (self other : Class)
    (o : Outcome Class) : Prop :=
  (o.exception.isSome = true ∧ o.after = u ∧ o.invalidated = []) ∨
    (o.exception = none ∧ Interposed runtime u self other o)

/-- A check in front of the first change fails. -/
def Refused (runtime : Runtime Class) (u : Universe Class) (self other : Class) : Prop :=
  u.infraSuperclass other = none ∨ u.infraSuperclass other ≠ u.infraSuperclass self ∨
    runtime.hasIvars self = true

section Checks

variable [DecidableEq Class] {runtime : Runtime Class} {u : Universe Class} {self other : Class}

/-- A failing check raises an exception and changes nothing. -/
theorem interposeBeforeClass_of_refused (h : Refused runtime u self other) :
    ∃ reason, u.interposeBeforeClass runtime (some self) (some other) =
      u.throwInconsistency reason := by
  simp only [Universe.interposeBeforeClass]
  split
  · exact ⟨_, rfl⟩
  · rename_i superInfra hsuper
    split
    · exact ⟨_, rfl⟩
    · rename_i hsame
      rw [Refused, hsuper] at h
      rcases h with h | h | h
      · cases h
      · exact absurd h hsame
      · rw [if_pos h]
        exact ⟨_, rfl⟩

theorem interposeBeforeClass_of_not_refused (h : ¬ Refused runtime u self other) :
    u.interposeBeforeClass runtime (some self) (some other) =
      { after := u.link runtime self other
        invalidated := runtime.classes.flatMap
          (interposeCallback runtime (u.link runtime self other) other) } := by
  simp only [Refused, not_or, ne_eq, not_not, Bool.not_eq_true] at h
  obtain ⟨hroot, hsame, hivars⟩ := h
  obtain ⟨superInfra, hsuper⟩ := Option.ne_none_iff_exists'.mp hroot
  simp [Universe.interposeBeforeClass, ← hsame, hsuper, hivars]

end Checks

section Superclass

variable {runtime : Runtime Class} {u : Universe Class} {c d : Class}

theorem superclass_of_infraSuperclass (h : u.infraSuperclass c = some d) :
    u.superclass (.infraclass c) = some (.infraclass d) := by
  unfold Universe.infraSuperclass at h
  split at h
  · rename_i hsuper
    rw [hsuper, Option.some.inj h]
  · cases h

theorem ends_infraSuperclass (hends : Ends u.superclass) : Ends u.infraSuperclass :=
  hends.of_embedding Node.infraclass fun _ _ => superclass_of_infraSuperclass

end Superclass

section Link

variable [DecidableEq Class] {runtime : Runtime Class} {u : Universe Class}
  {self other : Class}

@[simp] theorem link_superclass : (u.link runtime self other).superclass =
    Function.update (Function.update u.superclass (.infraclass other) (some (.infraclass self)))
      (.metaclass other) (some (.metaclass self)) := rfl

@[simp] theorem link_superclassid : (u.link runtime self other).superclassid =
    Function.update (Function.update u.superclassid (.infraclass other) (runtime.classid self))
      (.infraclass self) (runtime.classid self) := rfl

theorem link_infraSuperclass : (u.link runtime self other).infraSuperclass =
    Function.update u.infraSuperclass other (some self) := by
  funext c
  unfold Universe.infraSuperclass
  by_cases hc : c = other
  · subst hc
    simp
  · simp [hc]

/-- Putting a class in front of a class with the same superclass ends no chain in a cycle. -/
theorem ends_link (hu : u.Sound runtime) (hne : self ≠ other) {superInfra : Class}
    (hself : u.infraSuperclass self = some superInfra)
    (hother : u.infraSuperclass other = some superInfra) :
    Ends (u.link runtime self other).superclass := by
  have hself := superclass_of_infraSuperclass hself
  have hother := superclass_of_infraSuperclass hother
  have hinfra : Ends (Function.update u.superclass (.infraclass other)
      (some (.infraclass self))) :=
    hu.acyclic.update (by simpa using hne) (hself.trans hother.symm)
  refine hinfra.update (by simpa using hne) ?_
  simp [hu.meta_superclass _ _ hself, hu.meta_superclass _ _ hother]

omit [DecidableEq Class] in
theorem mem_invalidated {linked : Universe Class} (hends : Ends linked.superclass)
    (n : Node Class) : n ∈ runtime.classes.flatMap (interposeCallback runtime linked other) ↔
      Below linked.infraSuperclass n.pair other := by
  have hsubclass : ∀ c, n ∈ interposeCallback runtime linked other c ↔
      n.pair = c ∧ Below linked.infraSuperclass c other := by
    intro c
    rw [← runtime.isSubclass_iff _ (ends_infraSuperclass hends), interposeCallback]
    cases n with
    | infraclass d => split <;> simp_all [Node.pair]
    | metaclass d => split <;> simp_all [Node.pair]
  simp only [List.mem_flatMap, hsubclass]
  constructor
  · rintro ⟨c, -, hc, hbelow⟩
    exact hc ▸ hbelow
  · intro hbelow
    exact ⟨n.pair, runtime.mem_classes n.pair, rfl, hbelow⟩

/-- All links are right when the checks pass for two different classes. -/
theorem linked_of_not_refused (hu : u.Sound runtime) (hne : self ≠ other)
    (h : ¬ Refused runtime u self other) :
    Linked u self other (u.interposeBeforeClass runtime (some self) (some other)) := by
  rw [interposeBeforeClass_of_not_refused h]
  simp only [Refused, not_or, ne_eq, not_not] at h
  obtain ⟨hroot, hsame, -⟩ := h
  obtain ⟨superInfra, hother⟩ := Option.ne_none_iff_exists'.mp hroot
  have hself : u.infraSuperclass self = some superInfra := hsame.symm.trans hother
  have hends := ends_link hu hne hself hother
  have hself := superclass_of_infraSuperclass hself
  have hother := superclass_of_infraSuperclass hother
  refine ⟨hends, by simp, ?_, by simp, ?_, ?_, fun n => ?_⟩
  · simp [hne, hself, hother]
  · simp [hne, hu.meta_superclass _ _ hself, hu.meta_superclass _ _ hother]
  · rintro (c | c) - hc <;> simp_all [Node.pair]
  · rw [mem_invalidated hends, link_infraSuperclass, below_update]

/-- The interposed class has its own `classid` as the id of its superclass. -/
theorem link_superclassid_self :
    (u.link runtime self other).superclassid (.infraclass self) = runtime.classid self := by
  rw [link_superclassid, Function.update_self]

end Link

/-- The hierarchy stays sound only if an exception is raised. -/
theorem keepsHierarchy_iff [DecidableEq Class] (runtime : Runtime Class) {u : Universe Class}
    (hu : u.Sound runtime) (self other : Class) :
    KeepsHierarchy runtime u self other
        (u.interposeBeforeClass runtime (some self) (some other)) ↔
      Refused runtime u self other := by
  constructor
  · intro hkeeps
    by_contra hpass
    rw [interposeBeforeClass_of_not_refused hpass] at hkeeps
    simp only [Refused, not_or, ne_eq, not_not] at hpass
    obtain ⟨hroot, hsame, -⟩ := hpass
    obtain ⟨superInfra, hother⟩ := Option.ne_none_iff_exists'.mp hroot
    have hself : u.infraSuperclass self = some superInfra := hsame.symm.trans hother
    rcases hkeeps with ⟨hexception, -, -⟩ | ⟨-, hinterposed⟩
    · cases hexception
    · have hsuper : (u.link runtime self other).superclass (.infraclass self) =
          some (.infraclass superInfra) :=
        hinterposed.superclass_infra.trans (superclass_of_infraSuperclass hother)
      have hid := hinterposed.superclassid _ _ hsuper
      rw [link_superclassid_self] at hid
      obtain rfl := runtime.classid_injective hid
      exact hu.acyclic.parent_ne_self _ (superclass_of_infraSuperclass hself)
  · intro hrefused
    obtain ⟨reason, heq⟩ := interposeBeforeClass_of_refused hrefused
    rw [heq]
    exact .inl ⟨rfl, rfl, rfl⟩

section Siblings

/-- A class and its superclasses, of which there are at most two. -/
def threeSuperclasses (superclass : Option Bool → Option (Option Bool)) (c : Option Bool) :
    List (Option (Option Bool)) :=
  [some c, superclass c, (superclass c).bind superclass]

theorem superclass_mem_threeSuperclasses :
    ∀ (superclass : Option Bool → Option (Option Bool)) (c d e : Option Bool),
    some d ∈ threeSuperclasses superclass c → superclass d = some e →
      some e ∈ threeSuperclasses superclass c := by decide

theorem mem_threeSuperclasses_iff (superclass : Option Bool → Option (Option Bool))
    (c d : Option Bool) :
    some d ∈ threeSuperclasses superclass c ↔ Below superclass c d := by
  constructor
  · intro h
    simp only [threeSuperclasses, List.mem_cons, List.not_mem_nil, or_false] at h
    rcases h with h | h | h
    · exact Option.some.inj h ▸ .refl
    · exact .single h.symm
    · obtain ⟨e, he, hd⟩ := Option.bind_eq_some_iff.mp h.symm
      exact .tail (.single he) hd
  · intro h
    induction h with
    | refl => exact List.mem_cons_self
    | tail _ hparent ih => exact superclass_mem_threeSuperclasses _ _ _ _ ih hparent

/-- A root class, `none`, and two subclasses. -/
def siblingRuntime : Runtime (Option Bool) where
  classid
    | none => 1
    | some false => 2
    | some true => 3
  name
    | none => "Foo"
    | some false => "Bar"
    | some true => "Baz"
  hasIvars _ := false
  classes := [none, some false, some true]
  isSubclass superclass c d := decide (some d ∈ threeSuperclasses superclass c)
  classid_injective := by decide
  mem_classes := by decide
  isSubclass_iff superclass _ c d := by
    rw [decide_eq_true_iff, mem_threeSuperclasses_iff]

def siblings : Universe (Option Bool) where
  superclass
    | .infraclass none => none
    | .infraclass (some _) => some (.infraclass none)
    | .metaclass none => some (.infraclass none)
    | .metaclass (some _) => some (.metaclass none)
  superclassid
    | .infraclass none => 0
    | _ => 1

theorem sound_siblings : siblings.Sound siblingRuntime where
  acyclic := by
    let depth : Node (Option Bool) → ℕ
      | .infraclass c => if c = none then 0 else 1
      | .metaclass c => if c = none then 1 else 2
    refine Subrelation.wf (fun {n m} h => ?_) (measure depth).wf
    change depth n < depth m
    rcases m with (_ | c) | (_ | c) <;> cases h <;> simp [depth]
  infra_superclass c n h := by
    cases c <;> cases h
    exact ⟨none, rfl⟩
  meta_superclass c d h := by
    cases c <;> cases h
    rfl
  superclassid n m h := by rcases n with (_ | c) | (_ | c) <;> cases h <;> rfl

/-- A root class is refused. -/
theorem root_keepsHierarchy : KeepsHierarchy siblingRuntime siblings (some false) none
    (siblings.interposeBeforeClass siblingRuntime (some (some false)) (some none)) :=
  (keepsHierarchy_iff siblingRuntime sound_siblings (some false) none).mpr (.inl rfl)

/-- The id of the superclass of the interposed class is wrong. -/
theorem siblings_not_keepsHierarchy :
    ¬ KeepsHierarchy siblingRuntime siblings (some false) (some true)
      (siblings.interposeBeforeClass siblingRuntime (some (some false)) (some (some true))) := by
  rintro (⟨hexception, -, -⟩ | ⟨-, h⟩)
  · exact absurd hexception (by decide)
  · exact absurd (h.superclassid (.infraclass (some false)) (.infraclass none) rfl) (by decide)

end Siblings

end MulleObjC.NSObject
