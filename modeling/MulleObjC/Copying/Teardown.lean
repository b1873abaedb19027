import MulleObjC.Copying.Property

/-!
# The end of an object

Finalizing and deallocating an object releases what its owning ivars hold, each of them
once, and nothing else.
-/

namespace MulleObjC.Copying

open Holdings

variable {Ivar Allocator : Type*}

theorem mem_walkProperties_of_clearable {hierarchy : List (Infraclass Ivar)} {p : Property Ivar}
    (hp : p ∈ walkClearableProperties hierarchy) : p ∈ walkProperties hierarchy := by
  obtain ⟨infra, hinfra, hp⟩ := List.mem_flatMap.mp hp
  exact List.mem_flatMap.mpr ⟨infra, (List.mem_filter.mp hinfra).1, hp⟩

section Held

variable {cls : Class Ivar} {v : Ivar} {x : ℕ}

/-- What an ivar with a value holds. -/
def Class.resource (cls : Class Ivar) (allocator : Allocator) (v : Ivar) (x : ℕ) :
    Option (Resource Allocator) :=
  if x = 0 then none
  else some (match cls.type v with | .string => .string allocator x | _ => .object x)

/-- What the ivars of an object hold. -/
def Instance.held (cls : Class Ivar) (obj : Instance Ivar Allocator) (v : Ivar) :
    Option (Resource Allocator) := cls.resource obj.allocator v (obj.ivar v)

@[simp] theorem Class.resource_zero (allocator : Allocator) :  cls.resource allocator v 0 = none :=
  if_pos rfl

theorem Class.resource_of_string (allocator : Allocator) (hv : cls.type v = .string)
    (hx : x ≠ 0) : cls.resource allocator v x = some (.string allocator x) := by
  simp [Class.resource, hv, hx]

theorem Class.resource_of_object (allocator : Allocator) (hv : cls.type v = .object)
    (hx : x ≠ 0) : cls.resource allocator v x = some (.object x) := by
  simp [Class.resource, hv, hx]

end Held

variable [DecidableEq Ivar]

/-- The ivars that own what they hold. -/
def Class.owned (cls : Class Ivar) : Finset Ivar :=
  (((walkProperties cls.hierarchy).filter (·.owns)).filterMap (·.ivar) ++ cls.deallocIvars).toFinset

/-- Writing an ivar changes what it holds. -/
theorem Instance.held_update {cls : Class Ivar} {obj : Instance Ivar Allocator} {v : Ivar} (x : ℕ) :
    ({ obj with ivar := Function.update obj.ivar v x } : Instance Ivar Allocator).held cls =
      Function.update (obj.held cls) v (cls.resource obj.allocator v x) := by
  funext w
  by_cases hw : w = v
  · subst hw
    simp [Instance.held]
  · simp [Instance.held, hw]

theorem Instance.clearIvar_ivar_self {obj : Instance Ivar Allocator} {v : Ivar}
    (resource : ℕ → Resource Allocator) :
    (obj.clearIvar resource v).2.ivar v = 0 := by
  unfold Instance.clearIvar
  split
  · assumption
  · exact Function.update_self v 0 obj.ivar

variable [DecidableEq Allocator]

/-- An outcome that releases what it takes out of the owning ivars. -/
structure GivesUp (cls : Class Ivar) (obj : Instance Ivar Allocator)
    (r : Outcome Ivar Allocator) : Prop where
  allocator : r.2.allocator = obj.allocator
  zero : ∀ v, obj.ivar v = 0 → r.2.ivar v = 0
  acquisitions : ∀ q, acquisitions r.1 q = 0
  releases : ∀ q, releases r.1 q + count cls.owned (r.2.held cls) q = count cls.owned (obj.held cls) q

variable {cls : Class Ivar} {obj : Instance Ivar Allocator} {v : Ivar}

theorem Class.mem_owned : v ∈ cls.owned ↔
    (∃ p ∈ walkProperties cls.hierarchy, p.owns = true ∧ p.ivar = some v) ∨ v ∈ cls.deallocIvars := by
  simp only [Class.owned, List.mem_toFinset, List.mem_append, List.mem_filterMap, List.mem_filter,
    and_assoc]

theorem GivesUp.refl : GivesUp cls obj ([], obj) where
  allocator := rfl
  zero _ h := h
  acquisitions _ := rfl
  releases _ := Nat.zero_add _

theorem GivesUp.andThen {r : Outcome Ivar Allocator} (hr : GivesUp cls obj r)
    {f : Instance Ivar Allocator → Outcome Ivar Allocator} (hf : GivesUp cls r.2 (f r.2)) :
    GivesUp cls obj (r.andThen f) where
  allocator := hf.allocator.trans hr.allocator
  zero v h := hf.zero v (hr.zero v h)
  acquisitions q := by
    rw [Outcome.andThen, acquisitions_append, hr.acquisitions, hf.acquisitions]
  releases q := by
    have h := hf.releases q
    have h' := hr.releases q
    have happend := releases_append (r := q) r.1 (f r.2).1
    change Holdings.releases (r.1 ++ (f r.2).1) q + count cls.owned ((f r.2).2.held cls) q = _
    omega

theorem GivesUp.walk {Item : Type*} {f : Instance Ivar Allocator → Item → Outcome Ivar Allocator}
    {is : List Item} (hf : ∀ obj, ∀ i ∈ is, GivesUp cls obj (f obj i)) :
    GivesUp cls obj (Instance.walk f is obj) := by
  induction is generalizing obj with
  | nil => exact .refl
  | cons i is ih =>
    have hfirst := hf obj i List.mem_cons_self
    exact hfirst.andThen (ih fun obj j hj => hf obj j (List.mem_cons_of_mem i hj))

/-- A walk zeroes what one of its items zeroes. -/
theorem walk_ivar_eq_zero {Item : Type*}
    {f : Instance Ivar Allocator → Item → Outcome Ivar Allocator} {is : List Item}
    (hf : ∀ obj, ∀ i ∈ is, GivesUp cls obj (f obj i)) {i : Item} (hi : i ∈ is)
    (hzero : ∀ obj, (f obj i).2.ivar v = 0) : (Instance.walk f is obj).2.ivar v = 0 := by
  induction is generalizing obj with
  | nil => cases hi
  | cons j is ih =>
    have hrest := fun obj k hk => hf obj k (List.mem_cons_of_mem j hk)
    rcases List.mem_cons.mp hi with rfl | hi
    · have hstay : GivesUp cls (f obj i).2 (Instance.walk f is (f obj i).2) := .walk hrest
      exact hstay.zero v (hzero obj)
    · exact ih hrest hi

/-- Clearing an owning ivar releases what it held. -/
theorem givesUp_clearIvar {resource : ℕ → Resource Allocator} (hv : v ∈ cls.owned)
    (hresource : ∀ x, x ≠ 0 → cls.resource obj.allocator v x = some (resource x)) :
    GivesUp cls obj (obj.clearIvar resource v) := by
  unfold Instance.clearIvar
  split
  · exact .refl
  · rename_i hx
    have hheld : obj.held cls v = some (resource (obj.ivar v)) := hresource _ hx
    refine ⟨rfl, ?_, fun q => acquisitions_released _ [], ?_⟩
    · intro w hw
      by_cases hne : w = v
      · subst hne
        exact absurd hw hx
      · exact (Function.update_of_ne hne 0 obj.ivar).trans hw
    · intro q
      have h := count_update (r := q) (obj.held cls) hv none
      rw [Instance.held_update, Class.resource_zero, releases_released, releases_nil]
      simp only [hheld, Option.some.injEq, reduceCtorEq, if_false] at h
      omega

theorem givesUp_setPropertyValueNil (hv : v ∈ cls.owned) (htype : cls.type v = .object) :
    GivesUp cls obj (obj.setPropertyValueNil v) :=
  givesUp_clearIvar hv fun _ hx => Class.resource_of_object _ htype hx

theorem givesUp_setPropertyCstringNull (hv : v ∈ cls.owned) (htype : cls.type v = .string) :
    GivesUp cls obj (obj.setPropertyCstringNull v) :=
  givesUp_clearIvar hv fun _ hx => Class.resource_of_string _ htype hx

section Property

variable {p : Property Ivar} (hp : p ∈ walkProperties cls.hierarchy)

include hp

theorem givesUp_cstring (howns : p.owns = true) (hcstring : p.isCstring = true)
    (hv : p.ivar = some v) : GivesUp cls obj (obj.setPropertyCstringNull v) := by
  have htype := cls.type_ivar p hp howns v hv
  rw [hcstring, if_pos rfl] at htype
  exact givesUp_setPropertyCstringNull (Class.mem_owned.mpr (.inl ⟨p, hp, howns, hv⟩)) htype

theorem givesUp_value (howns : p.owns = true) (hcstring : p.isCstring = false)
    (hv : p.ivar = some v) : GivesUp cls obj (obj.setPropertyValueNil v) := by
  have htype := cls.type_ivar p hp howns v hv
  rw [hcstring, if_neg Bool.false_ne_true] at htype
  exact givesUp_setPropertyValueNil (Class.mem_owned.mpr (.inl ⟨p, hp, howns, hv⟩)) htype

omit [DecidableEq Ivar] in
theorem Class.owns_of_isCstring (hcstring : p.isCstring = true) : p.owns = true := by
  rw [Property.owns, cls.cstring_copy p hp hcstring, Bool.true_or]

theorem givesUp_clearProperty : GivesUp cls obj (obj.clearProperty p) := by
  have howns := cls.clear_owns p hp
  unfold Instance.clearProperty
  split
  · exact .refl
  split
  · rename_i hsetter
    unfold Instance.callSetterNull
    have howns := howns (by rw [hsetter, Bool.true_or])
    split
    · exact .refl
    · rename_i v hv
      split
      · rename_i hcstring
        exact givesUp_cstring hp howns hcstring hv
      · rename_i hcstring
        exact givesUp_value hp howns (Bool.not_eq_true _ ▸ hcstring) hv
  split
  · rename_i hcstring
    split
    · rename_i v hv
      exact givesUp_cstring hp (Class.owns_of_isCstring hp hcstring) hcstring hv
    · exact .refl
  split
  · rename_i hcstring hclear
    split
    · rename_i v hv
      exact givesUp_value hp (howns (by rw [hclear, Bool.or_true]))
        (Bool.not_eq_true _ ▸ hcstring) hv
    · exact .refl
  · exact .refl

theorem givesUp_clearPropertyNoReadOnly : GivesUp cls obj (obj.clearPropertyNoReadOnly p) := by
  unfold Instance.clearPropertyNoReadOnly
  split
  · exact .refl
  · exact givesUp_clearProperty hp

theorem givesUp_clearPropertyOnlyReadOnly :
    GivesUp cls obj (obj.clearPropertyOnlyReadOnly p) := by
  unfold Instance.clearPropertyOnlyReadOnly
  split
  · exact givesUp_clearProperty hp
  · exact .refl

end Property

omit [DecidableEq Allocator] in
/-- A property that is not forwarded is cleared. -/
theorem clearProperty_ivar_eq_zero {p : Property Ivar} (hv : p.ivar = some v)
    (hforward : p.isForward = false)
    (hclear : (p.setterclear || p.isCstring || p.autoreleaseclear) = true) :
    (obj.clearProperty p).2.ivar v = 0 := by
  unfold Instance.clearProperty
  rw [if_neg (by simp [hforward]), Instance.callSetterNull, hv]
  split
  · simp only
    split <;> exact Instance.clearIvar_ivar_self _
  · split
    · exact Instance.clearIvar_ivar_self _
    · rename_i hsetter hcstring
      rw [if_pos (by simpa [hsetter, hcstring] using hclear)]
      exact Instance.clearIvar_ivar_self _

theorem givesUp_walk_noReadOnly : GivesUp cls obj
    (Instance.walk Instance.clearPropertyNoReadOnly (walkClearableProperties cls.hierarchy) obj) :=
  .walk fun _ _ hp => givesUp_clearPropertyNoReadOnly (mem_walkProperties_of_clearable hp)

theorem givesUp_walk_onlyReadOnly : GivesUp cls obj
    (Instance.walk Instance.clearPropertyOnlyReadOnly (walkClearableProperties cls.hierarchy) obj) :=
  .walk fun _ _ hp => givesUp_clearPropertyOnlyReadOnly (mem_walkProperties_of_clearable hp)

theorem givesUp_finalize : GivesUp cls obj (obj.finalize cls) := by
  unfold Instance.finalize
  split
  · exact givesUp_walk_onlyReadOnly.andThen givesUp_walk_noReadOnly
  · exact givesUp_walk_noReadOnly

theorem givesUp_deallocIvar (hv : v ∈ cls.deallocIvars) :
    GivesUp cls obj (obj.deallocIvar cls v) := by
  have howned : v ∈ cls.owned := Class.mem_owned.mpr (.inr hv)
  unfold Instance.deallocIvar
  rcases cls.dealloc_ivar v hv with htype | htype
  · rw [htype]
    exact givesUp_setPropertyValueNil howned htype
  · rw [htype]
    exact givesUp_setPropertyCstringNull howned htype

/-- The end of an object releases what its owning ivars hold. -/
theorem givesUp_teardown (cls : Class Ivar) (obj : Instance Ivar Allocator) :
    GivesUp cls obj (obj.teardown cls) :=
  givesUp_finalize.andThen (.walk fun _ _ hv => givesUp_deallocIvar hv)

/-- The properties that `-finalize` reaches are cleared, readonly ones in the first walk. -/
theorem finalize_ivar_eq_zero {p : Property Ivar} (hp : p ∈ walkClearableProperties cls.hierarchy)
    (hcleared : p.isCleared cls.isMulleObject = true) (hv : p.ivar = some v) :
    (obj.finalize cls).2.ivar v = 0 := by
  simp only [Property.isCleared, Bool.and_eq_true, Bool.not_eq_true'] at hcleared
  obtain ⟨⟨hforward, hclear⟩, hmode⟩ := hcleared
  have hzero : ∀ obj : Instance Ivar Allocator, (obj.clearProperty p).2.ivar v = 0 :=
    fun _ => clearProperty_ivar_eq_zero hv hforward hclear
  unfold Instance.finalize
  cases hreadonly : p.isReadonly with
  | true =>
    have hmulle : cls.isMulleObject = true := by simpa [hreadonly] using hmode
    rw [if_pos hmulle]
    have hgives : ∀ obj : Instance Ivar Allocator, ∀ p ∈ walkClearableProperties cls.hierarchy,
        GivesUp cls obj (obj.clearPropertyOnlyReadOnly p) :=
      fun _ _ hp => givesUp_clearPropertyOnlyReadOnly (mem_walkProperties_of_clearable hp)
    refine givesUp_walk_noReadOnly.zero v (walk_ivar_eq_zero hgives hp fun obj => ?_)
    simpa only [Instance.clearPropertyOnlyReadOnly, hreadonly, if_true] using hzero obj
  | false =>
    have hwalk : ∀ obj : Instance Ivar Allocator, (Instance.walk Instance.clearPropertyNoReadOnly
        (walkClearableProperties cls.hierarchy) obj).2.ivar v = 0 := by
      intro obj
      have hgives : ∀ obj : Instance Ivar Allocator, ∀ p ∈ walkClearableProperties cls.hierarchy,
          GivesUp cls obj (obj.clearPropertyNoReadOnly p) :=
        fun _ _ hp => givesUp_clearPropertyNoReadOnly (mem_walkProperties_of_clearable hp)
      refine walk_ivar_eq_zero hgives hp fun obj => ?_
      simpa only [Instance.clearPropertyNoReadOnly, hreadonly, Bool.false_eq_true,
        if_false] using hzero obj
    split <;> exact hwalk _

/-- No owning ivar holds anything at the end. -/
theorem teardown_ivar_eq_zero (hv : v ∈ cls.owned) : (obj.teardown cls).2.ivar v = 0 := by
  have hdealloc : ∀ obj : Instance Ivar Allocator, ∀ w ∈ cls.deallocIvars,
      GivesUp cls obj (obj.deallocIvar cls w) := fun _ _ hw => givesUp_deallocIvar hw
  have hmem : v ∈ cls.deallocIvars ∨ ∃ q ∈ walkClearableProperties cls.hierarchy,
      q.isCleared cls.isMulleObject = true ∧ q.ivar = some v := by
    rcases Class.mem_owned.mp hv with ⟨p, hp, howns, hpv⟩ | hv
    · exact cls.given_up p hp howns v hpv
    · exact .inl hv
  rcases hmem with hv | ⟨q, hq, hcleared, hqv⟩
  · refine walk_ivar_eq_zero hdealloc hv fun obj => ?_
    unfold Instance.deallocIvar
    split <;> exact Instance.clearIvar_ivar_self _
  · exact (GivesUp.walk hdealloc).zero v (finalize_ivar_eq_zero hq hcleared hqv)

/-- Every resource is released as often as the owning ivars held it. -/
theorem releases_teardown (cls : Class Ivar) (obj : Instance Ivar Allocator)
    (q : Resource Allocator) :
    releases (obj.teardown cls).1 q = count cls.owned (obj.held cls) q := by
  have h := (givesUp_teardown cls obj).releases q
  have hzero : count cls.owned ((obj.teardown cls).2.held cls) q = 0 := by
    apply count_eq_zero
    intro v hv
    rw [Instance.held, teardown_ivar_eq_zero hv, Class.resource_zero]
    exact Option.some_ne_none q |>.symm
  omega

end MulleObjC.Copying
