import Mathlib.Data.Nat.Bitwise

/-!
# Creating an instance

`+instance` shortens `[[[self alloc] init] autorelease]`: it tests the standard
implementation mask of a class instead of dispatching. The mask is read again behind
`+alloc`, but not behind `-init`, which may also return an object of another class.
-/

namespace MulleObjC.NSObject

/-- `enum _mulle_objc_methodfamily`, as far as `+instance` needs it. -/
inductive Family
  | alloc
  | init
  | autorelease
  deriving DecidableEq, Repr

/-- The bit of a family in a standard implementation mask. -/
def Family.bit : Family → ℕ
  | alloc => 1
  | init => 3
  | autorelease => 6

/-- Who receives a message. -/
inductive Receiver (Class Object : Type*)
  | infraclass (cls : Class)
  | object (obj : Object)
  deriving DecidableEq

/-- The method bodies that were performed and their receivers, what the last of them returned
and the world behind it. -/
abbrev Performed (Class Object World Imp : Type*) :=
  List (Imp × Receiver Class Object) × Option Object × World

/-- The classes and their methods. A method may do anything to the world. -/
structure Methods (Class Object World Imp : Type*) where
  isa : World → Object → Class
  /-- The method of a family that a class uses, its own or an inherited one. -/
  lookup : Class → Family → Imp
  standard : Family → Imp
  standardimpmask : Class → ℕ
  run : Imp → Receiver Class Object → World → Option Object × World
  testBit_standardimpmask : ∀ cls family,
    (standardimpmask cls).testBit family.bit = true ↔ lookup cls family = standard family
  /-- `_MulleObjCStandardInitInline` -/
  run_standard_init : ∀ obj w, run (standard .init) (.object obj) w = (some obj, w)

variable {Class Object World Imp : Type*}

/-- Go on with what was returned. -/
def Performed.andThen (r : Performed Class Object World Imp)
    (f : Option Object → World → Performed Class Object World Imp) :
    Performed Class Object World Imp :=
  (r.1 ++ (f r.2.1 r.2.2).1, (f r.2.1 r.2.2).2)

namespace Methods

variable (methods : Methods Class Object World Imp)

/-- Perform a method body. -/
def call (imp : Imp) (receiver : Receiver Class Object) (w : World) :
    Performed Class Object World Imp :=
  ([(imp, receiver)], methods.run imp receiver w)

/-- Dispatch to an object. Messages to `nil` do nothing. -/
def send (family : Family) : Option Object → World → Performed Class Object World Imp
  | none, w => ([], none, w)
  | some obj, w => methods.call (methods.lookup (methods.isa w obj) family) (.object obj) w

/-- `MulleObjCClassGetStandardImplementationMask` -/
def getStandardImplementationMask : Option Class → ℕ
  | none => 0
  | some cls => methods.standardimpmask cls

/-- `MulleObjCClassCallAllocInline` -/
def callAllocInline (cls : Class) (mask : ℕ) (w : World) : Performed Class Object World Imp :=
  if mask.testBit Family.alloc.bit then methods.call (methods.standard .alloc) (.infraclass cls) w
  else methods.call (methods.lookup cls .alloc) (.infraclass cls) w

/-- The standard implementation if the mask has the bit of the family, else a dispatch. -/
def callInline (family : Family) (mask : ℕ) (self : Option Object) (w : World) :
    Performed Class Object World Imp :=
  if mask.testBit family.bit then
    match self with
    | none => ([], none, w)
    | some obj => methods.call (methods.standard family) (.object obj) w
  else methods.send family self w

/-- `MulleObjCInstanceCallInitInline` -/
def callInitInline : ℕ → Option Object → World → Performed Class Object World Imp :=
  methods.callInline .init

/-- `MulleObjCInstanceCallAutoreleaseInline` -/
def callAutoreleaseInline : ℕ → Option Object → World → Performed Class Object World Imp :=
  methods.callInline .autorelease

/-- `+instance` -/
def makeInstance [DecidableEq Class] (self : Class) (w : World) :
    Performed Class Object World Imp :=
  let mask := methods.getStandardImplementationMask (some self)
  (methods.callAllocInline self mask w).andThen fun obj w =>
    let cls := obj.map (methods.isa w)
    let mask := if cls ≠ some self then methods.getStandardImplementationMask cls else mask
    (methods.callInitInline mask obj w).andThen (methods.callAutoreleaseInline mask)

/-- `[[[self alloc] init] autorelease]` -/
def allocInitAutorelease (self : Class) (w : World) : Performed Class Object World Imp :=
  (methods.call (methods.lookup self .alloc) (.infraclass self) w).andThen fun obj w =>
    (methods.send .init obj w).andThen (methods.send .autorelease)

/-- The object that `+alloc` returns has the standard `-autorelease`, but the one that its
`-init` returns has another. -/
def SkipsAutorelease (self : Class) (w : World) : Prop :=
  ∃ obj w₁ obj' w₂,
    methods.run (methods.lookup self .alloc) (.infraclass self) w = (some obj, w₁) ∧
    methods.lookup (methods.isa w₁ obj) .autorelease = methods.standard .autorelease ∧
    methods.run (methods.lookup (methods.isa w₁ obj) .init) (.object obj) w₁ = (some obj', w₂) ∧
    methods.lookup (methods.isa w₂ obj') .autorelease ≠ methods.standard .autorelease

variable {methods}

theorem callAllocInline_eq (self : Class) (w : World) :
    methods.callAllocInline self (methods.getStandardImplementationMask (some self)) w =
      methods.call (methods.lookup self .alloc) (.infraclass self) w := by
  unfold callAllocInline
  split
  · rename_i hbit
    rw [(methods.testBit_standardimpmask self .alloc).mp hbit]
  · rfl

/-- A mask that fits the class of the receiver makes the shortcut a dispatch. -/
theorem callInline_eq_send {family : Family} {mask : ℕ} {self : Option Object} {w : World}
    (hmask : ∀ obj, self = some obj → mask.testBit family.bit = true →
      methods.lookup (methods.isa w obj) family = methods.standard family) :
    methods.callInline family mask self w = methods.send family self w := by
  unfold callInline
  split
  · rename_i hbit
    cases self with
    | none => rfl
    | some obj =>
      simp only [send]
      rw [hmask obj rfl hbit]
  · rfl

/-- `+instance` uses the mask for the class of the object that `+alloc` returned. -/
theorem makeInstance_eq [DecidableEq Class] (self : Class) (w : World) :
    methods.makeInstance self w =
      (methods.call (methods.lookup self .alloc) (.infraclass self) w).andThen fun obj w =>
        (methods.send .init obj w).andThen
          (methods.callAutoreleaseInline
            (methods.getStandardImplementationMask (obj.map (methods.isa w)))) := by
  unfold makeInstance
  simp only [callAllocInline_eq]
  congr 1
  funext obj w
  have hmask : (if obj.map (methods.isa w) ≠ some self then
      methods.getStandardImplementationMask (obj.map (methods.isa w))
      else methods.getStandardImplementationMask (some self)) =
        methods.getStandardImplementationMask (obj.map (methods.isa w)) := by
    split
    · rfl
    · rename_i hcls
      rw [not_not.mp hcls]
  rw [hmask]
  congr 1
  apply callInline_eq_send
  rintro obj rfl hbit
  exact (methods.testBit_standardimpmask _ .init).mp hbit

/-- The shortcut of `-autorelease` is wrong for an object with another method only. -/
theorem callAutoreleaseInline_eq_send_iff {cls : Class} {obj : Object} {w : World} :
    methods.callAutoreleaseInline (methods.standardimpmask cls) (some obj) w =
        methods.send .autorelease (some obj) w ↔
      (methods.lookup cls .autorelease = methods.standard .autorelease →
        methods.lookup (methods.isa w obj) .autorelease = methods.standard .autorelease) := by
  constructor
  · intro heq hcls
    have hbit := (methods.testBit_standardimpmask cls .autorelease).mpr hcls
    simp only [callAutoreleaseInline, callInline, hbit, if_true, send, call] at heq
    have htrace := List.head_eq_of_cons_eq (Prod.mk.inj heq).1
    exact (Prod.mk.inj htrace).1.symm
  · intro h
    apply callInline_eq_send
    intro obj' hobj hbit
    obtain rfl := Option.some.inj hobj
    exact h ((methods.testBit_standardimpmask cls .autorelease).mp hbit)

theorem andThen_right_inj {r : Performed Class Object World Imp}
    {f g : Option Object → World → Performed Class Object World Imp} :
    r.andThen f = r.andThen g ↔ f r.2.1 r.2.2 = g r.2.1 r.2.2 := by
  unfold Performed.andThen
  rw [Prod.mk.injEq, List.append_right_inj]
  exact Prod.ext_iff.symm

/-- `+instance` performs what `[[[self alloc] init] autorelease]` performs, unless `-init`
replaces an object with the standard `-autorelease` by one with another. -/
theorem makeInstance_eq_iff [DecidableEq Class] (methods : Methods Class Object World Imp)
    (self : Class) (w : World) :
    methods.makeInstance self w = methods.allocInitAutorelease self w ↔
      ¬ methods.SkipsAutorelease self w := by
  rw [makeInstance_eq, allocInitAutorelease, andThen_right_inj, andThen_right_inj]
  obtain ⟨⟨obj, w₁⟩, halloc⟩ : ∃ r, methods.run
      (methods.lookup self .alloc) (.infraclass self) w = r := ⟨_, rfl⟩
  simp only [call, halloc]
  cases obj with
  | none =>
    -- Nothing is sent to `nil`.
    refine iff_of_true (callInline_eq_send fun obj hobj => ?_) ?_
    · cases hobj
    · rintro ⟨obj, w', obj', w₂, halloc', -⟩
      exact absurd (halloc.symm.trans halloc') (by simp)
  | some obj =>
    obtain ⟨⟨obj', w₂⟩, hinit⟩ : ∃ r, methods.run
        (methods.lookup (methods.isa w₁ obj) .init) (.object obj) w₁ = r := ⟨_, rfl⟩
    simp only [send, call, hinit, Option.map_some, getStandardImplementationMask]
    cases obj' with
    | none =>
      refine iff_of_true (callInline_eq_send fun obj hobj => ?_) ?_
      · cases hobj
      · rintro ⟨obj, w', obj', w₂, halloc', -, hinit', -⟩
        obtain ⟨hobj, rfl⟩ := Prod.mk.inj (halloc.symm.trans halloc')
        obtain rfl := Option.some.inj hobj
        exact absurd (hinit.symm.trans hinit') (by simp)
    | some obj' =>
      refine callAutoreleaseInline_eq_send_iff.trans ?_
      constructor
      · rintro hstandard ⟨obj, w', obj'', w'', halloc', hobj, hinit', hother⟩
        obtain ⟨hsame, rfl⟩ := Prod.mk.inj (halloc.symm.trans halloc')
        obtain rfl := Option.some.inj hsame
        obtain ⟨hsame, rfl⟩ := Prod.mk.inj (hinit.symm.trans hinit')
        obtain rfl := Option.some.inj hsame
        exact hother (hstandard hobj)
      · intro hskips hobj
        by_contra hother
        exact hskips ⟨obj, w₁, obj', w₂, halloc, hobj, hinit, hother⟩

/-- The standard `-init` replaces no object. -/
theorem not_skipsAutorelease_of_standard_init {self : Class} {w : World}
    (hinit : ∀ obj w₁, methods.run (methods.lookup self .alloc) (.infraclass self) w =
      (some obj, w₁) → methods.lookup (methods.isa w₁ obj) .init = methods.standard .init) :
    ¬ methods.SkipsAutorelease self w := by
  rintro ⟨obj, w₁, obj', w₂, halloc, hstandard, hrun, hother⟩
  rw [hinit obj w₁ halloc, methods.run_standard_init] at hrun
  obtain ⟨hobj, rfl⟩ := Prod.mk.inj hrun
  obtain rfl := Option.some.inj hobj
  exact hother hstandard

end Methods

section Cluster

/-- A class cluster, the class of its placeholder and a class with its own `-autorelease`. -/
inductive ClusterClass
  | cluster
  | placeholder
  | concrete
  deriving DecidableEq

inductive ClusterImp
  | standard (family : Family)
  /-- The `+alloc` of the class cluster returns the placeholder. -/
  | clusterAlloc
  /-- The `-init` of the placeholder returns another object. -/
  | placeholderInit
  | concreteAutorelease
  deriving DecidableEq

/-- The classes of a class cluster. The placeholder is object 0. -/
def clusterMethods : Methods ClusterClass ℕ Unit ClusterImp where
  isa _ obj := if obj = 0 then .placeholder else .concrete
  lookup
    | .cluster, .alloc => .clusterAlloc
    | .placeholder, .init => .placeholderInit
    | .concrete, .autorelease => .concreteAutorelease
    | _, family => .standard family
  standard := .standard
  standardimpmask
    | .cluster => 2 ^ 3 + 2 ^ 6
    | .placeholder => 2 ^ 1 + 2 ^ 6
    | .concrete => 2 ^ 1 + 2 ^ 3
  run
    | .standard .alloc, .infraclass _, w => (some 1, w)
    | .clusterAlloc, _, w => (some 0, w)
    | .placeholderInit, _, w => (some 1, w)
    | _, .object obj, w => (some obj, w)
    | _, _, w => (none, w)
  testBit_standardimpmask cls family := by cases cls <;> cases family <;> decide
  run_standard_init _ _ := rfl

/-- The `-autorelease` of the concrete class is skipped. -/
theorem cluster_makeInstance_ne : ¬ ∀ self w,
    clusterMethods.makeInstance self w = clusterMethods.allocInitAutorelease self w := by
  intro h
  exact absurd (h .cluster ()) (by decide)

end Cluster

end MulleObjC.NSObject
