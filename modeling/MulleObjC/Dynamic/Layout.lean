import Mathlib.Data.Set.Defs
import MulleObjC.Dynamic.Creation

/-!
# Properties that do not conflict

If the accessors of all properties have different selectors, then all methods that messages
create are those of the properties, and all accessors of a property lead to its getter.
-/

namespace MulleObjC.Dynamic

variable {Cls Sel : Type*} [DecidableEq Cls] [DecidableEq Sel]

/-- Two properties agree on the getter for the other accessors that have the same selector. -/
def Property.Agrees (p q : Property Sel) : Prop :=
  ∀ pType qType sel, pType ≠ .getter → qType ≠ .getter → (pType, sel) ∈ p.accessors →
    (qType, sel) ∈ q.accessors → p.getter = q.getter

/-- The property that is meant by a setter without a property. -/
def meantProperty (runtime : Runtime Cls Sel) (setter : Descriptor Sel) : Property Sel :=
  { Universe.fakeProperty (Universe.getterOfSetter runtime setter) setter with
    getter := runtime.methodidFromString (valueName setter.name) }

/-- The properties of a class, and those that are made up for it, do not conflict. -/
structure Layout (runtime : Runtime Cls Sel) (cls : Cls) (properties : Set (Property Sel)) :
    Prop where
  declared : ∀ infra ∈ runtime.hierarchy cls, ∀ sel p,
    searchDynamicProperty (runtime.properties infra) sel = some p → p ∈ properties
  inherited : ∀ infra ∈ runtime.hierarchy cls, ∀ sel p,
    searchDynamicProperty (runtime.properties infra) sel = some p →
    searchDynamicProperty (runtime.properties cls) sel = some p
  /-- A selector belongs to one accessor. -/
  accessor_inj : ∀ p ∈ properties, ∀ q ∈ properties, ∀ pType qType sel,
    (pType, sel) ∈ p.accessors → (qType, sel) ∈ q.accessors → p = q ∧ pType = qType
  /-- Containers are objects. -/
  containers : ∀ p ∈ properties, ∀ accessorType sel, (accessorType, sel) ∈ p.accessors →
    accessorType = .adder ∨ accessorType = .remover → p.isContainerType runtime = true
  /-- The lookup of getters is the same for all classes. -/
  elsewhere : ∀ infra sel q, searchDynamicProperty (runtime.properties infra) sel = some q →
    ∀ p ∈ properties, q.Agrees p

theorem searchDynamicProperty_isSome {properties : List (Property Sel)} {sel : Sel}
    {p : Property Sel} (h : searchDynamicProperty properties sel = some p) :
    ∃ q, searchDynamicProperty properties p.getter = some q := by
  have hdynamic : p.isDynamic = true := by
    have hfound := List.find?_some h
    simp only [Property.isFound, Bool.and_eq_true] at hfound
    exact hfound.1
  apply Option.isSome_iff_exists.mp
  apply List.find?_isSome.mpr
  exact ⟨p, List.mem_of_find?_eq_some h, by simp [Property.isFound, hdynamic]⟩

omit [DecidableEq Cls] in
/-- A declared property is found for its getter, too. -/
theorem Layout.searchDynamicProperty_getter {runtime : Runtime Cls Sel} {cls infra : Cls}
    {properties : Set (Property Sel)} (h : Layout runtime cls properties)
    (hinfra : infra ∈ runtime.hierarchy cls) {sel : Sel} {p : Property Sel}
    (hp : searchDynamicProperty (runtime.properties infra) sel = some p) :
    searchDynamicProperty (runtime.properties cls) p.getter = some p := by
  obtain ⟨q, hq⟩ := searchDynamicProperty_isSome hp
  obtain ⟨qType, hqmem⟩ := mem_accessors_of_isFound (List.find?_some hq)
  obtain ⟨rfl, -⟩ := h.accessor_inj p (h.declared infra hinfra sel p hp) q
    (h.declared infra hinfra _ q hq) .getter qType p.getter (mem_accessors.mpr (.inl ⟨rfl, rfl⟩))
    hqmem
  exact h.inherited infra hinfra _ p hq

namespace Universe

variable (runtime : Runtime Cls Sel) (cls : Cls) (properties : Set (Property Sel))
  (u : Universe Cls Sel)

/-- The methods of a class are those of its properties, and lead to their getters. -/
structure Sound : Prop where
  implementation : ∀ infra ∈ runtime.hierarchy cls, ∀ sel imp, u.methods infra sel = some imp →
    ∀ p ∈ properties, ∀ accessorType, (accessorType, sel) ∈ p.accessors →
      imp = p.implementation runtime accessorType ∧
        (accessorType ≠ .getter → u.getterLookup sel = some p.getter)
  code : ∀ infra ∈ runtime.hierarchy cls, ∀ sel imp, u.methods infra sel = some imp →
    (∀ p ∈ properties, ∀ accessorType, (accessorType, sel) ∉ p.accessors) → imp = .code
  getterLookup : ∀ sel key, u.getterLookup sel = some key →
    ∀ p ∈ properties, ∀ accessorType, accessorType ≠ .getter → (accessorType, sel) ∈ p.accessors →
      key = p.getter
  /-- The getter of a property that is made up exists with the setter. -/
  getter : ∀ infra ∈ runtime.hierarchy cls, ∀ p ∈ properties, ∀ accessorType sel,
    (accessorType, sel) ∈ p.accessors → (u.methods infra sel).isSome = true →
      (u.methods infra p.getter).isSome = true ∨
        searchDynamicProperty (runtime.properties cls) p.getter = some p

/-- If a message makes up a property, then it is the one that is meant, one of those of the class,
and in no conflict with them. -/
def MakesUpRight (infra : Cls) (sel : Sel) : Prop :=
  ∀ setter ∈ u.madeUpSetter runtime infra sel,
    getterName setter.name = valueName setter.name ∧
      (infra ∈ runtime.hierarchy cls → meantProperty runtime setter ∈ properties) ∧
      ∀ p ∈ properties, (meantProperty runtime setter).Agrees p

/-- The classes are loaded. No accessor of a property exists yet. -/
structure Initial : Prop where
  code : ∀ infra sel imp, u.methods infra sel = some imp → imp = .code
  accessors : ∀ infra ∈ runtime.hierarchy cls, ∀ p ∈ properties, ∀ accessorType sel,
    (accessorType, sel) ∈ p.accessors → u.methods infra sel = none
  getterLookup : ∀ sel, u.getterLookup sel = none
  descriptors : ∀ p, searchDynamicProperty (runtime.properties cls) p.getter = some p →
    ∀ accessorType sel, (accessorType, sel) ∈ p.accessors → (u.descriptors sel).isSome = true

variable {runtime} {cls} {properties} {u} {u' : Universe Cls Sel} {infra : Cls} {sel : Sel}
  {q : Property Sel} {accessors : List (AccessorType × Sel)}

omit [DecidableEq Cls] [DecidableEq Sel] in
theorem meantProperty_eq {setter : Descriptor Sel}
    (h : getterName setter.name = valueName setter.name) :
    meantProperty runtime setter = fakeProperty (getterOfSetter runtime setter) setter := by
  rw [meantProperty, ← h]
  rfl

omit [DecidableEq Cls] in
theorem Initial.sound (h : u.Initial runtime cls properties) : u.Sound runtime cls properties where
  implementation infra hinfra sel imp himp p hp accessorType hmem := by
    cases (h.accessors infra hinfra p hp accessorType sel hmem).symm.trans himp
  code infra _ sel imp himp _ := h.code infra sel imp himp
  getterLookup sel key hkey := by cases (h.getterLookup sel).symm.trans hkey
  getter infra hinfra p hp accessorType sel hmem hsome := by
    rw [h.accessors infra hinfra p hp accessorType sel hmem] at hsome
    cases hsome

/-- Methods of one of the properties keep a class sound. -/
theorem Sound.extends (hlayout : Layout runtime cls properties)
    (h : u.Sound runtime cls properties) (hextends : Extends runtime infra q accessors u u')
    (hsub : accessors ⊆ q.accessors) (hagrees : ∀ p ∈ properties, q.Agrees p)
    (hmem : infra ∈ runtime.hierarchy cls → q ∈ properties)
    (hgetter : infra ∈ runtime.hierarchy cls → (u'.methods infra q.getter).isSome = true ∨
      searchDynamicProperty (runtime.properties cls) q.getter = some q) :
    u'.Sound runtime cls properties := by
  constructor
  case implementation =>
    intro other hother sel imp himp p hp pType hpmem
    by_cases hsame : other = infra
    · subst hsame
      obtain hbefore | ⟨qType, hqmem, rfl⟩ := hextends.methods sel imp himp
      · obtain ⟨rfl, hlookup⟩ := h.implementation other hother sel imp hbefore p hp pType hpmem
        exact ⟨rfl, fun hne => hextends.getterLookup_mono _ _ (hlookup hne)⟩
      · obtain ⟨rfl, rfl⟩ := hlayout.accessor_inj p hp q (hmem hother) pType qType sel hpmem
          (hsub hqmem)
        exact ⟨rfl, fun hne => hextends.getterLookup_eq _ hqmem hne⟩
    · rw [hextends.methods_of_ne other hsame] at himp
      obtain ⟨rfl, hlookup⟩ := h.implementation other hother sel imp himp p hp pType hpmem
      exact ⟨rfl, fun hne => hextends.getterLookup_mono _ _ (hlookup hne)⟩
  case code =>
    intro other hother sel imp himp hnone
    by_cases hsame : other = infra
    · subst hsame
      obtain hbefore | ⟨qType, hqmem, -⟩ := hextends.methods sel imp himp
      · exact h.code other hother sel imp hbefore hnone
      · exact absurd (hsub hqmem) (hnone q (hmem hother) qType)
    · rw [hextends.methods_of_ne other hsame] at himp
      exact h.code other hother sel imp himp hnone
  case getterLookup =>
    intro sel key hkey p hp pType hne hpmem
    obtain hbefore | ⟨rfl, qType, hqne, hqmem⟩ := hextends.getterLookup sel key hkey
    · exact h.getterLookup sel key hbefore p hp pType hne hpmem
    · exact hagrees p hp qType pType sel hqne hne (hsub hqmem) hpmem
  case getter =>
    intro other hother p hp pType sel hpmem hsome
    by_cases hsame : other = infra
    · subst hsame
      obtain ⟨imp, himp⟩ := Option.isSome_iff_exists.mp hsome
      obtain hbefore | ⟨qType, hqmem, -⟩ := hextends.methods sel imp himp
      · obtain hgetter | hdeclared := h.getter other hother p hp pType sel hpmem
          (Option.isSome_iff_exists.mpr ⟨imp, hbefore⟩)
        · exact .inl (hextends.isSome_methods _ (.inl hgetter))
        · exact .inr hdeclared
      · obtain ⟨rfl, -⟩ := hlayout.accessor_inj p hp q (hmem hother) pType qType sel hpmem
          (hsub hqmem)
        exact hgetter hother
    · rw [hextends.methods_of_ne other hsame] at hsome ⊢
      exact h.getter other hother p hp pType sel hpmem hsome

theorem Sound.gains (hlayout : Layout runtime cls properties)
    (h : u.Sound runtime cls properties)
    (hmakesUp : u.MakesUpRight runtime cls properties infra sel)
    (hgains : Gains runtime infra sel u u') : u'.Sound runtime cls properties := by
  cases hgains with
  | nothing hmethods hlookup _ =>
    constructor
    · rw [hmethods, hlookup]
      exact h.implementation
    · rw [hmethods]
      exact h.code
    · rw [hlookup]
      exact h.getterLookup
    · rw [hmethods]
      exact h.getter
  | @declared q hproperty hextends =>
    refine h.extends hlayout hextends ?_ (hlayout.elsewhere infra sel q hproperty)
      (fun hinfra => hlayout.declared infra hinfra sel q hproperty) fun hinfra => .inr ?_
    · intro a ha
      obtain ⟨b, hb, rfl⟩ := List.mem_map.mp ha
      exact (mem_missingAccessors.mp hb).1
    · exact hlayout.searchDynamicProperty_getter hinfra hproperty
  | @madeUp setter hsetter hextends =>
    obtain ⟨hname, hmem, hagrees⟩ := hmakesUp setter hsetter
    rw [← meantProperty_eq hname] at hextends
    refine h.extends hlayout hextends (List.Subset.refl _) hagrees hmem fun _ => .inl ?_
    exact hextends.isSome_methods _ (.inr ⟨_, List.mem_cons_self, rfl⟩)

/-- The accessors of a declared property can always be created. -/
theorem Sound.handles (hlayout : Layout runtime cls properties)
    (h : u.Sound runtime cls properties)
    (hproperty : searchDynamicProperty (runtime.properties cls) sel = some q)
    (hdescriptors : ∀ a ∈ q.accessors, (u.descriptors a.2).isSome = true) :
    ∃ imp u', u.send runtime cls sel = .method imp u' := by
  obtain ⟨accessorType, hmem⟩ := mem_accessors_of_isFound (List.find?_some hproperty)
  unfold send
  cases hsearch : u.searchMethod runtime cls sel with
  | some imp => exact ⟨imp, u, rfl⟩
  | none =>
    have hq := hlayout.declared cls (runtime.mem_hierarchy cls) sel q hproperty
    refine (forward_isMethod_of_property hproperty hsearch).mpr ⟨hdescriptors _ hmem,
      takesMethodlist_of_descriptors hdescriptors, fun a ha => ?_⟩
    obtain ⟨haccessor, -⟩ := mem_missingAccessors.mp ha
    exact ⟨hlayout.containers q hq a.1 _ haccessor, fun hne key hkey =>
      h.getterLookup _ key hkey q hq a.1 hne haccessor⟩

end Universe

end MulleObjC.Dynamic
