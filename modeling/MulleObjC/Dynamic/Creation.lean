import MulleObjC.Dynamic.Forward

/-!
# Creation of methods

A message without a method creates the missing methods of a property, or those of a property
that is made up. The methods are those of the property, and their selectors lead to its getter.
-/

namespace MulleObjC.Dynamic

variable {Cls Sel : Type*} [DecidableEq Sel]

/-- The implementation of an accessor. -/
def Property.implementation (runtime : Runtime Cls Sel) (property : Property Sel) :
    AccessorType → Implementation
  | .getter => property.getterImplementation runtime
  | .setter => property.setterImplementation runtime
  | .adder => .adder property.isObservable property.isRelationship
  | .remover => .remover property.isObservable property.isRelationship
  | .invalid => .code

section Accessors

variable {property : Property Sel} {accessorType : AccessorType} {sel : Sel}

omit [DecidableEq Sel]

theorem mem_accessors : (accessorType, sel) ∈ property.accessors ↔
    accessorType = .getter ∧ sel = property.getter ∨
      accessorType = .setter ∧ property.setter = some sel ∨
      accessorType = .adder ∧ property.adder = some sel ∨
      accessorType = .remover ∧ property.remover = some sel := by
  cases accessorType <;> simp [Property.accessors]

theorem ne_invalid_of_mem_accessors (h : (accessorType, sel) ∈ property.accessors) :
    accessorType ≠ .invalid := by
  rintro rfl
  simp [mem_accessors] at h

end Accessors

/-- A property is found for its accessors only. -/
theorem mem_accessors_of_isFound {property : Property Sel} {sel : Sel}
    (h : property.isFound sel = true) :
    ∃ accessorType, (accessorType, sel) ∈ property.accessors := by
  simp only [Property.isFound, Bool.and_eq_true, Bool.or_eq_true, decide_eq_true_eq] at h
  obtain ⟨-, hgetter | ⟨-, (hsetter | hadder) | hremover⟩⟩ := h
  · exact ⟨.getter, mem_accessors.mpr (.inl ⟨rfl, hgetter.symm⟩)⟩
  · exact ⟨.setter, mem_accessors.mpr (.inr (.inl ⟨rfl, hsetter⟩))⟩
  · exact ⟨.adder, mem_accessors.mpr (.inr (.inr (.inl ⟨rfl, hadder⟩)))⟩
  · exact ⟨.remover, mem_accessors.mpr (.inr (.inr (.inr ⟨rfl, hremover⟩)))⟩

namespace Universe

variable (runtime : Runtime Cls Sel) (u : Universe Cls Sel)

variable {runtime} {u} {u' : Universe Cls Sel} {infra : Cls} {property : Property Sel}
  {accessorType : AccessorType} {desc : Descriptor Sel} {sel : Sel} {imp : Implementation}

@[simp] theorem registerDescriptor_methods : (u.registerDescriptor desc).methods = u.methods := by
  unfold registerDescriptor
  split <;> rfl

@[simp]
theorem registerDescriptor_getterLookup :
    (u.registerDescriptor desc).getterLookup = u.getterLookup := by
  unfold registerDescriptor
  split <;> rfl

theorem registerDescriptor_descriptors (hsel : (u.descriptors sel).isSome = true) :
    ((u.registerDescriptor desc).descriptors sel).isSome = true := by
  unfold registerDescriptor
  split
  · exact hsel
  · by_cases hmethodid : sel = desc.methodid
    · simp [hmethodid]
    · simpa [Function.update_of_ne hmethodid] using hsel

theorem registerGetterLookup_eq_ok (h : u.registerGetterLookup sel property = .ok u') :
    u'.methods = u.methods ∧ u'.descriptors = u.descriptors ∧
      u'.getterLookup = Function.update u.getterLookup sel (some property.getter) := by
  unfold registerGetterLookup at h
  split at h
  · cases h
    exact ⟨rfl, rfl, rfl⟩
  next key hkey =>
    split at h
    next hsame =>
      cases h
      exact ⟨rfl, rfl, by rw [← hsame, ← hkey, Function.update_eq_self]⟩
    · cases h

theorem registerGetterLookup_isOk :
    (∃ u', u.registerGetterLookup sel property = .ok u') ↔
      ∀ key, u.getterLookup sel = some key → key = property.getter := by
  unfold registerGetterLookup
  cases u.getterLookup sel with
  | none => simp
  | some key => by_cases hkey : key = property.getter <;> simp [hkey]

variable [DecidableEq Cls]

@[simp]
theorem addMethod_methods :
    (u.addMethod infra desc imp).methods = Function.update u.methods infra
      (Function.update (u.methods infra) desc.methodid (some imp)) := by
  simp [addMethod]

@[simp]
theorem addMethod_getterLookup :
    (u.addMethod infra desc imp).getterLookup = u.getterLookup := by
  simp [addMethod]

theorem addMethod_descriptors (hsel : (u.descriptors sel).isSome = true) :
    ((u.addMethod infra desc imp).descriptors sel).isSome = true :=
  registerDescriptor_descriptors hsel

variable (runtime u) in
/-- An accessor can be created unless its selector leads to another getter, or it is a container
accessor and the values are no objects. -/
def CanInit (property : Property Sel) (accessorType : AccessorType) (sel : Sel) : Prop :=
  (accessorType = .adder ∨ accessorType = .remover → property.isContainerType runtime = true) ∧
    (accessorType ≠ .getter → ∀ key, u.getterLookup sel = some key → key = property.getter)

variable (runtime) in
/-- A method for an accessor is added to a class. -/
structure Creates (infra : Cls) (property : Property Sel) (accessorType : AccessorType) (sel : Sel)
    (u u' : Universe Cls Sel) : Prop where
  methods : u'.methods = Function.update u.methods infra
    (Function.update (u.methods infra) sel (some (property.implementation runtime accessorType)))
  getterLookup : u'.getterLookup = if accessorType = .getter then u.getterLookup else
    Function.update u.getterLookup sel (some property.getter)
  descriptors : ∀ other, (u.descriptors other).isSome = true →
    (u'.descriptors other).isSome = true

theorem register_eq_ok (h : (do
      let u ← u.registerGetterLookup desc.methodid property
      return u.addMethod infra desc imp) = Except.ok u') :
    u'.methods = Function.update u.methods infra
      (Function.update (u.methods infra) desc.methodid (some imp)) ∧
      u'.getterLookup = Function.update u.getterLookup desc.methodid (some property.getter) ∧
      ∀ other, (u.descriptors other).isSome = true → (u'.descriptors other).isSome = true := by
  cases hregister : u.registerGetterLookup desc.methodid property with
  | error failure =>
    rw [hregister] at h
    cases h
  | ok registered =>
    rw [hregister] at h
    cases h
    obtain ⟨hmethods, hdescriptors, hlookup⟩ := registerGetterLookup_eq_ok hregister
    refine ⟨by rw [addMethod_methods, hmethods], by rw [addMethod_getterLookup, hlookup],
      fun other hother => addMethod_descriptors ?_⟩
    rwa [hdescriptors]

theorem register_isOk : (∃ u', (do
      let u ← u.registerGetterLookup desc.methodid property
      return u.addMethod infra desc imp) = Except.ok u') ↔
    ∀ key, u.getterLookup desc.methodid = some key → key = property.getter := by
  rw [← registerGetterLookup_isOk]
  cases u.registerGetterLookup desc.methodid property with
  | error failure =>
    constructor
    · rintro ⟨u', h⟩
      cases h
    · rintro ⟨u', h⟩
      cases h
  | ok registered => exact ⟨fun _ => ⟨_, rfl⟩, fun _ => ⟨_, rfl⟩⟩

/-- An initialized method is that of the accessor. -/
theorem creates_of_initMethod (htype : accessorType ≠ .invalid)
    (h : u.initMethod runtime infra property accessorType desc = .ok u') :
    Creates runtime infra property accessorType desc.methodid u u' := by
  cases accessorType with
  | getter =>
    cases h
    exact ⟨addMethod_methods, addMethod_getterLookup, fun _ => addMethod_descriptors⟩
  | setter =>
    obtain ⟨hmethods, hlookup, hdescriptors⟩ := register_eq_ok h
    exact ⟨hmethods, hlookup, hdescriptors⟩
  | adder | remover =>
    simp only [initMethod] at h
    split at h
    · obtain ⟨hmethods, hlookup, hdescriptors⟩ := register_eq_ok h
      exact ⟨hmethods, hlookup, hdescriptors⟩
    · cases h
  | invalid => exact absurd rfl htype

theorem initMethod_isOk (htype : accessorType ≠ .invalid) :
    (∃ u', u.initMethod runtime infra property accessorType desc = .ok u') ↔
      u.CanInit runtime property accessorType desc.methodid := by
  cases accessorType with
  | getter => simp [initMethod, CanInit]
  | setter => exact register_isOk.trans (by simp [CanInit])
  | adder | remover =>
    by_cases hcontainer : property.isContainerType runtime = true
    · simp only [initMethod, if_pos hcontainer]
      exact register_isOk.trans (by simp [CanInit, hcontainer])
    · simp [initMethod, CanInit, hcontainer]
  | invalid => exact absurd rfl htype

variable (runtime) in
/-- Methods for some accessors of a property are added to a class. -/
structure Extends (infra : Cls) (property : Property Sel) (accessors : List (AccessorType × Sel))
    (u u' : Universe Cls Sel) : Prop where
  methods_of_ne : ∀ other, other ≠ infra → u'.methods other = u.methods other
  methods : ∀ sel imp, u'.methods infra sel = some imp → u.methods infra sel = some imp ∨
    ∃ accessorType, (accessorType, sel) ∈ accessors ∧
      imp = property.implementation runtime accessorType
  isSome_methods : ∀ sel, (u.methods infra sel).isSome = true ∨ (∃ a ∈ accessors, a.2 = sel) →
    (u'.methods infra sel).isSome = true
  getterLookup : ∀ sel key, u'.getterLookup sel = some key → u.getterLookup sel = some key ∨
    key = property.getter ∧ ∃ accessorType, accessorType ≠ .getter ∧ (accessorType, sel) ∈ accessors
  getterLookup_mono : ∀ sel key, u.getterLookup sel = some key → u'.getterLookup sel = some key
  getterLookup_eq : ∀ a ∈ accessors, a.1 ≠ .getter → u'.getterLookup a.2 = some property.getter
  descriptors : ∀ sel, (u.descriptors sel).isSome = true → (u'.descriptors sel).isSome = true

variable {accessors : List (AccessorType × Sel)} {u₁ : Universe Cls Sel}

omit [DecidableEq Sel] [DecidableEq Cls] in
theorem Extends.refl : Extends runtime infra property [] u u where
  methods_of_ne _ _ := rfl
  methods _ _ h := .inl h
  isSome_methods _ h := by simpa using h
  getterLookup _ _ h := .inl h
  getterLookup_mono _ _ h := h
  getterLookup_eq := by simp
  descriptors _ h := h

/-- One method more. -/
theorem Extends.cons (hcan : u.CanInit runtime property accessorType sel)
    (hcreates : Creates runtime infra property accessorType sel u u₁)
    (h : Extends runtime infra property accessors u₁ u') :
    Extends runtime infra property ((accessorType, sel) :: accessors) u u' := by
  have hmono : ∀ sel key, u.getterLookup sel = some key → u₁.getterLookup sel = some key := by
    intro other key hkey
    rw [hcreates.getterLookup]
    split_ifs with htype
    · exact hkey
    · by_cases hsel : other = sel
      · subst hsel
        rw [Function.update_self, hcan.2 htype key hkey]
      · rw [Function.update_of_ne hsel, hkey]
  refine ⟨fun other hother => ?_, fun other imp himp => ?_, fun other hother => ?_,
    fun other key hkey => ?_, fun other key hkey => h.getterLookup_mono _ _ (hmono _ _ hkey), ?_,
    fun other hother => h.descriptors other (hcreates.descriptors other hother)⟩
  · rw [h.methods_of_ne other hother, hcreates.methods, Function.update_of_ne hother]
  · obtain hbefore | ⟨otherType, hmem, himp⟩ := h.methods other imp himp
    · rw [hcreates.methods, Function.update_self] at hbefore
      by_cases hsel : other = sel
      · subst hsel
        rw [Function.update_self] at hbefore
        exact .inr ⟨accessorType, List.mem_cons_self, (Option.some.inj hbefore).symm⟩
      · rw [Function.update_of_ne hsel] at hbefore
        exact .inl hbefore
    · exact .inr ⟨otherType, List.mem_cons_of_mem _ hmem, himp⟩
  · apply h.isSome_methods
    rw [hcreates.methods, Function.update_self]
    by_cases hsel : other = sel
    · left
      rw [hsel, Function.update_self]
      rfl
    · rw [Function.update_of_ne hsel]
      obtain hsome | ⟨a, ha, rfl⟩ := hother
      · exact .inl hsome
      · obtain rfl | ha := List.mem_cons.mp ha
        · exact absurd rfl hsel
        · exact .inr ⟨a, ha, rfl⟩
  · obtain hbefore | ⟨hgetter, otherType, htype, hmem⟩ := h.getterLookup other key hkey
    · rw [hcreates.getterLookup] at hbefore
      split_ifs at hbefore with htype
      · exact .inl hbefore
      · by_cases hsel : other = sel
        · subst hsel
          rw [Function.update_self] at hbefore
          exact .inr ⟨(Option.some.inj hbefore).symm, accessorType, htype, List.mem_cons_self⟩
        · rw [Function.update_of_ne hsel] at hbefore
          exact .inl hbefore
    · exact .inr ⟨hgetter, otherType, htype, List.mem_cons_of_mem _ hmem⟩
  · intro a ha htype
    obtain rfl | ha := List.mem_cons.mp ha
    · apply h.getterLookup_mono
      rw [hcreates.getterLookup, if_neg htype, Function.update_self]
    · exact h.getterLookup_eq a ha htype

omit [DecidableEq Sel] [DecidableEq Cls] in
theorem Extends.canInit_iff (h : Extends runtime infra property accessors u u') :
    u'.CanInit runtime property accessorType sel ↔ u.CanInit runtime property accessorType sel := by
  refine and_congr_right fun _ => ⟨fun hcan htype key hkey => ?_, fun hcan htype key hkey => ?_⟩
  · exact hcan htype key (h.getterLookup_mono sel key hkey)
  · obtain hbefore | ⟨hgetter, -⟩ := h.getterLookup sel key hkey
    · exact hcan htype key hbefore
    · exact hgetter

/-- All methods of a list are initialized. -/
theorem extends_of_foldlM {accessors : List (AccessorType × Descriptor Sel)}
    (hvalid : ∀ a ∈ accessors, a.1 ≠ .invalid)
    (h : accessors.foldlM (fun u a => u.initMethod runtime infra property a.1 a.2) u = .ok u') :
    Extends runtime infra property (accessors.map fun a => (a.1, a.2.methodid)) u u' := by
  induction accessors generalizing u with
  | nil =>
    cases h
    exact .refl
  | cons a accessors ih =>
    rw [List.foldlM_cons] at h
    cases hinit : u.initMethod runtime infra property a.1 a.2 with
    | error failure =>
      rw [hinit] at h
      cases h
    | ok u₁ =>
      rw [hinit] at h
      have htype := hvalid a List.mem_cons_self
      have hrest := ih (fun b hb => hvalid b (List.mem_cons_of_mem a hb)) h
      exact hrest.cons ((initMethod_isOk htype).mp ⟨u₁, hinit⟩) (creates_of_initMethod htype hinit)

theorem foldlM_isOk {accessors : List (AccessorType × Descriptor Sel)}
    (hvalid : ∀ a ∈ accessors, a.1 ≠ .invalid) :
    (∃ u', accessors.foldlM (fun u a => u.initMethod runtime infra property a.1 a.2) u = .ok u') ↔
      ∀ a ∈ accessors, u.CanInit runtime property a.1 a.2.methodid := by
  induction accessors generalizing u with
  | nil => exact ⟨fun _ => List.forall_mem_nil _, fun _ => ⟨u, rfl⟩⟩
  | cons a accessors ih =>
    have htype := hvalid a List.mem_cons_self
    have hinit : (∃ u', u.initMethod runtime infra property a.1 a.2 = .ok u') ↔
        u.CanInit runtime property a.1 a.2.methodid := initMethod_isOk htype
    rw [List.forall_mem_cons, ← hinit]
    cases hu₁ : u.initMethod runtime infra property a.1 a.2 with
    | error failure =>
      rw [List.foldlM_cons, hu₁]
      constructor
      · rintro ⟨u', h⟩
        cases h
      · rintro ⟨⟨u', h⟩, -⟩
        cases h
    | ok u₁ =>
      have hone : Extends runtime infra property [(a.1, a.2.methodid)] u u₁ :=
        Extends.refl.cons (hinit.mp ⟨u₁, hu₁⟩) (creates_of_initMethod htype hu₁)
      rw [List.foldlM_cons, hu₁]
      refine Iff.trans (ih fun b hb => hvalid b (List.mem_cons_of_mem a hb)) ?_
      simp only [hone.canInit_iff]
      exact ⟨fun h => ⟨⟨u₁, rfl⟩, h⟩, fun h => h.2⟩

section Create

variable {a : AccessorType × Descriptor Sel} {neededSel : Sel}

omit [DecidableEq Cls] [DecidableEq Sel] in
theorem mem_missingAccessors : a ∈ u.missingAccessors infra property ↔
    (a.1, a.2.methodid) ∈ property.accessors ∧ u.methods infra a.2.methodid = none ∧
      u.descriptors a.2.methodid = some a.2 := by
  simp only [missingAccessors, missingMethods, List.mem_filterMap, List.mem_filter,
    Option.isNone_iff_eq_none]
  constructor
  · rintro ⟨⟨accessorType, sel⟩, ⟨hmem, hnone⟩, ha⟩
    obtain ⟨desc, hdesc, rfl⟩ := Option.map_eq_some_iff.mp ha
    obtain rfl := u.methodid_of_descriptors sel desc hdesc
    exact ⟨hmem, hnone, hdesc⟩
  · rintro ⟨hmem, hnone, hdesc⟩
    exact ⟨(a.1, a.2.methodid), ⟨hmem, hnone⟩, by rw [hdesc]; rfl⟩

omit [DecidableEq Cls] [DecidableEq Sel] in
theorem missingAccessors_valid :
    ∀ a ∈ u.missingAccessors infra property, a.1 ≠ .invalid := fun _ ha =>
  ne_invalid_of_mem_accessors (mem_missingAccessors.mp ha).1

omit [DecidableEq Cls] [DecidableEq Sel] in
theorem ite_failure_eq_method {b : Bool} {failure : Failure} {r : Outcome Cls Sel} :
    (if b then .failure failure else r) = .method imp u' ↔ b = false ∧ r = .method imp u' := by
  cases b <;> simp

variable (runtime u) in
/-- The accessors without a descriptor do not keep the method list from being added. -/
def TakesMethodlist (infra : Cls) (property : Property Sel) : Prop :=
  runtime.takesMethodlist (u.zeroedMethods infra property) = true

omit [DecidableEq Cls] [DecidableEq Sel] in
/-- If all accessors are known, no method is left zero. -/
theorem takesMethodlist_of_descriptors
    (h : ∀ a ∈ property.accessors, (u.descriptors a.2).isSome = true) :
    u.TakesMethodlist runtime infra property := by
  have hzero : u.zeroedMethods infra property = 0 := by
    refine List.countP_eq_zero.mpr fun a ha => ?_
    have hsome := h a (List.mem_filter.mp ha).1
    simp [Option.isSome_iff_ne_none.mp hsome]
  rw [TakesMethodlist, hzero]
  rfl

/-- Methods for a declared property are those of its accessors. -/
theorem of_createMethodsForProperty
    (h : u.createMethodsForProperty runtime infra property neededSel = .method imp u') :
    Extends runtime infra property
        ((u.missingAccessors infra property).map fun a => (a.1, a.2.methodid)) u u' ∧
      (∃ a ∈ u.missingAccessors infra property, a.2.methodid = neededSel) ∧
      u'.methods infra neededSel = some imp := by
  simp only [createMethodsForProperty] at h
  split at h
  · cases h
  next created hcreated =>
    have hextends := extends_of_foldlM missingAccessors_valid hcreated
    obtain ⟨-, h⟩ := ite_failure_eq_method.mp h
    split at h
    next hneeded =>
      have hneeded : ∃ a ∈ u.missingAccessors infra property, a.2.methodid = neededSel := by
        simpa using hneeded
      split at h
      next imp' hmethod =>
        cases h
        exact ⟨hextends, hneeded, hmethod⟩
      · cases h
    · cases h

theorem createMethodsForProperty_isMethod :
    (∃ imp u', u.createMethodsForProperty runtime infra property neededSel = .method imp u') ↔
      (∃ a ∈ u.missingAccessors infra property, a.2.methodid = neededSel) ∧
        u.TakesMethodlist runtime infra property ∧
        ∀ a ∈ u.missingAccessors infra property,
          u.CanInit runtime property a.1 a.2.methodid := by
  have hfold : (∃ created, (u.missingAccessors infra property).foldlM
      (fun u a => u.initMethod runtime infra property a.1 a.2) u = .ok created) ↔ _ :=
    foldlM_isOk missingAccessors_valid
  rw [← hfold]
  constructor
  · rintro ⟨imp, u', h⟩
    refine ⟨(of_createMethodsForProperty h).2.1, ?_⟩
    simp only [createMethodsForProperty] at h
    split at h
    · cases h
    next created hcreated =>
      obtain ⟨htakes, -⟩ := ite_failure_eq_method.mp h
      exact ⟨by simpa [TakesMethodlist] using htakes, created, hcreated⟩
  · rintro ⟨⟨a, ha, rfl⟩, htakes, created, hcreated⟩
    have hextends := extends_of_foldlM missingAccessors_valid hcreated
    have hmethod := hextends.isSome_methods a.2.methodid
      (.inr ⟨_, List.mem_map_of_mem ha, rfl⟩)
    obtain ⟨imp, himp⟩ := Option.isSome_iff_exists.mp hmethod
    have hneeded : (u.missingAccessors infra property).any
        (·.2.methodid = a.2.methodid) = true := by
      rw [List.any_eq_true]
      exact ⟨a, ha, by simp⟩
    have htakes : (!runtime.takesMethodlist (u.zeroedMethods infra property)) = false := by
      rw [htakes, Bool.not_true]
    refine ⟨imp, created, ?_⟩
    simp only [createMethodsForProperty, hcreated, htakes, Bool.false_eq_true, if_false, hneeded,
      if_true, himp]

variable {getter setter : Descriptor Sel}

theorem initMethod_fake_eq : (do
      let u ← u.initMethod runtime infra (fakeProperty getter setter) .getter getter
      u.initMethod runtime infra (fakeProperty getter setter) .setter setter) =
    [(AccessorType.getter, getter), (.setter, setter)].foldlM
      (fun u a => u.initMethod runtime infra (fakeProperty getter setter) a.1 a.2) u := by
  simp

theorem of_createMethodsForFakeProperty
    (h : u.createMethodsForFakeProperty runtime infra getter setter neededSel = .method imp u') :
    u.searchMethod runtime infra getter.methodid = none ∧
      u.searchMethod runtime infra setter.methodid = none ∧
      Extends runtime infra (fakeProperty getter setter)
        (fakeProperty getter setter).accessors u u' ∧
      u'.methods infra neededSel = some imp := by
  simp only [createMethodsForFakeProperty] at h
  split at h
  · cases h
  next hnone =>
    simp only [Bool.or_eq_true, Option.isSome_iff_ne_none, ne_eq, not_or, not_not] at hnone
    rw [initMethod_fake_eq] at h
    split at h
    · cases h
    next created hcreated =>
      have hextends := extends_of_foldlM (by simp) hcreated
      split at h
      next imp' hmethod =>
        cases h
        exact ⟨hnone.1, hnone.2, hextends, hmethod⟩
      · cases h

theorem createMethodsForFakeProperty_isMethod
    (hneeded : neededSel = getter.methodid ∨ neededSel = setter.methodid) :
    (∃ imp u', u.createMethodsForFakeProperty runtime infra getter setter neededSel =
        .method imp u') ↔
      u.searchMethod runtime infra getter.methodid = none ∧
        u.searchMethod runtime infra setter.methodid = none ∧
        ∀ key, u.getterLookup setter.methodid = some key → key = getter.methodid := by
  have hfold : (∃ created, [(AccessorType.getter, getter), (.setter, setter)].foldlM
      (fun u a => u.initMethod runtime infra (fakeProperty getter setter) a.1 a.2) u =
        .ok created) ↔ ∀ key, u.getterLookup setter.methodid = some key → key = getter.methodid :=
    (foldlM_isOk (by simp)).trans (by simp [CanInit, fakeProperty])
  rw [← hfold]
  constructor
  · rintro ⟨imp, u', h⟩
    obtain ⟨hgetter, hsetter, -⟩ := of_createMethodsForFakeProperty h
    refine ⟨hgetter, hsetter, ?_⟩
    simp only [createMethodsForFakeProperty, initMethod_fake_eq] at h
    split at h
    · cases h
    · split at h
      · cases h
      next created hcreated => exact ⟨created, hcreated⟩
  · rintro ⟨hgetter, hsetter, created, hcreated⟩
    have hextends := extends_of_foldlM (by simp) hcreated
    have hmethod := hextends.isSome_methods neededSel (.inr (by simpa [eq_comm] using hneeded))
    obtain ⟨imp, himp⟩ := Option.isSome_iff_exists.mp hmethod
    refine ⟨imp, created, ?_⟩
    simp only [createMethodsForFakeProperty, initMethod_fake_eq, hgetter, hsetter, hcreated, himp,
      Option.isSome_none, Bool.or_self, Bool.false_eq_true, if_false]

omit [DecidableEq Cls] [DecidableEq Sel] in
theorem methods_of_searchMethod (h : u.searchMethod runtime infra sel = none) :
    u.methods infra sel = none :=
  List.findSome?_eq_none_iff.mp h infra (runtime.mem_hierarchy infra)

omit [DecidableEq Cls] [DecidableEq Sel] in
theorem searchMethod_congr (h : u'.methods = u.methods) :
    u'.searchMethod runtime infra sel = u.searchMethod runtime infra sel := by
  rw [searchMethod, h, searchMethod]

theorem forward_isMethod_of_property
    (hproperty : searchDynamicProperty (runtime.properties infra) sel = some property)
    (hnone : u.searchMethod runtime infra sel = none) :
    (∃ imp u', u.forward runtime infra sel = .method imp u') ↔
      (u.descriptors sel).isSome = true ∧ u.TakesMethodlist runtime infra property ∧
        ∀ a ∈ u.missingAccessors infra property,
          u.CanInit runtime property a.1 a.2.methodid := by
  have hneeded : (∃ a ∈ u.missingAccessors infra property, a.2.methodid = sel) ↔
      (u.descriptors sel).isSome = true := by
    constructor
    · rintro ⟨a, ha, rfl⟩
      rw [(mem_missingAccessors.mp ha).2.2]
      rfl
    · intro hsome
      obtain ⟨desc, hdesc⟩ := Option.isSome_iff_exists.mp hsome
      obtain ⟨accessorType, hmem⟩ := mem_accessors_of_isFound (List.find?_some hproperty)
      obtain rfl := u.methodid_of_descriptors sel desc hdesc
      exact ⟨(accessorType, desc), mem_missingAccessors.mpr
        ⟨hmem, methods_of_searchMethod hnone, hdesc⟩, rfl⟩
  simp only [forward, hproperty]
  rw [createMethodsForProperty_isMethod, hneeded]

omit [DecidableEq Sel] in
theorem methodid_of_createFakeAccessor {name : List Char}
    (h : createFakeAccessor sel name = some desc) : desc.methodid = sel := by
  unfold createFakeAccessor at h
  split at h <;> cases h <;> rfl

omit [DecidableEq Cls] in
theorem of_descriptorOrFake (h : u.descriptorOrFake sel = some (desc, u')) :
    desc.methodid = sel ∧ u'.methods = u.methods ∧ u'.getterLookup = u.getterLookup ∧
      ∀ other, (u.descriptors other).isSome = true → (u'.descriptors other).isSome = true := by
  unfold descriptorOrFake at h
  split at h
  next hdesc =>
    cases h
    exact ⟨u.methodid_of_descriptors sel _ hdesc, rfl, rfl, fun _ hother => hother⟩
  · obtain ⟨name, -, hname⟩ := Option.bind_eq_some_iff.mp h
    obtain ⟨fake, hfake, hr⟩ := Option.map_eq_some_iff.mp hname
    cases hr
    exact ⟨methodid_of_createFakeAccessor hfake, registerDescriptor_methods,
      registerDescriptor_getterLookup, fun _ => registerDescriptor_descriptors⟩

/-- The getter that goes with a setter. -/
def getterOfSetter (runtime : Runtime Cls Sel) (setter : Descriptor Sel) : Descriptor Sel :=
  ⟨getterName setter.name, runtime.methodidFromString (getterName setter.name),
    ⟨setter.signature.argument.getD .other, none⟩, .getter⟩

omit [DecidableEq Cls] [DecidableEq Sel] in
theorem createGetterFromSetter_eq (setter : Descriptor Sel) :
    createGetterFromSetter runtime setter = .ok (getterOfSetter runtime setter) := rfl

omit [DecidableEq Cls] [DecidableEq Sel] in
/-- The arguments do not fit the format, so that no getter can come first. -/
theorem createSetterFromGetter_eq (getter : Descriptor Sel) :
    createSetterFromGetter runtime getter = .error .undefined := rfl

omit [DecidableEq Cls] [DecidableEq Sel] in
/-- Only the methods, the lookup and the known descriptors matter. -/
theorem Extends.of_eq (hmethods : u₁.methods = u.methods)
    (hlookup : u₁.getterLookup = u.getterLookup)
    (hdescriptors : ∀ sel, (u.descriptors sel).isSome = true → (u₁.descriptors sel).isSome = true)
    (h : Extends runtime infra property accessors u₁ u') :
    Extends runtime infra property accessors u u' where
  methods_of_ne := hmethods ▸ h.methods_of_ne
  methods := hmethods ▸ h.methods
  isSome_methods := hmethods ▸ h.isSome_methods
  getterLookup := hlookup ▸ h.getterLookup
  getterLookup_mono := hlookup ▸ h.getterLookup_mono
  getterLookup_eq := h.getterLookup_eq
  descriptors sel hsel := h.descriptors sel (hdescriptors sel hsel)

variable (runtime u) in
/-- The setter that a message makes up a property for. -/
def madeUpSetter (infra : Cls) (sel : Sel) : Option (Descriptor Sel) :=
  if (u.searchMethod runtime infra sel).isSome ||
      (searchDynamicProperty (runtime.properties infra) sel).isSome ||
      !(runtime.haveFullyDynamic && runtime.isFullyDynamic infra) then none
  else (u.descriptorOrFake sel).bind fun r =>
    if r.1.methodfamily = .setter then some r.1 else none

variable (runtime) in
/-- What the universe gains from a message. -/
inductive Gains (infra : Cls) (sel : Sel) (u u' : Universe Cls Sel) : Prop
  | nothing : u'.methods = u.methods → u'.getterLookup = u.getterLookup →
    (∀ sel, (u.descriptors sel).isSome = true → (u'.descriptors sel).isSome = true) →
    Gains infra sel u u'
  | declared {property : Property Sel} :
    searchDynamicProperty (runtime.properties infra) sel = some property →
    Extends runtime infra property
      ((u.missingAccessors infra property).map fun a => (a.1, a.2.methodid)) u u' →
    Gains infra sel u u'
  | madeUp {desc : Descriptor Sel} : u.madeUpSetter runtime infra sel = some desc →
    Extends runtime infra (fakeProperty (getterOfSetter runtime desc) desc)
      (fakeProperty (getterOfSetter runtime desc) desc).accessors u u' →
    Gains infra sel u u'

/-- A message that is handled finds its method, or creates it. -/
theorem gains_of_send (h : u.send runtime infra sel = .method imp u') :
    Gains runtime infra sel u u' ∧
      ∃ other ∈ runtime.hierarchy infra, u'.methods other sel = some imp := by
  unfold send at h
  split at h
  next found hsearch =>
    cases h
    exact ⟨.nothing rfl rfl fun _ h => h, List.exists_of_findSome?_eq_some hsearch⟩
  next hsearch =>
    unfold forward at h
    split at h
    next property hproperty =>
      obtain ⟨hextends, -, hmethod⟩ := of_createMethodsForProperty h
      exact ⟨.declared hproperty hextends, infra, runtime.mem_hierarchy infra, hmethod⟩
    next hproperty =>
      split at h
      next hdynamic =>
        unfold createAccessorMethods at h
        split at h
        · cases h
        next desc known hdescriptor =>
          obtain ⟨-, hmethods, hlookup, hdescriptors⟩ := of_descriptorOrFake hdescriptor
          split at h
          next hsetter =>
            rw [createGetterFromSetter_eq] at h
            obtain ⟨-, -, hextends, hmethod⟩ := of_createMethodsForFakeProperty h
            have hmadeUp : u.madeUpSetter runtime infra sel = some desc := by
              simp [madeUpSetter, hsearch, hproperty, hdynamic, hdescriptor, hsetter]
            exact ⟨.madeUp hmadeUp (hextends.of_eq hmethods hlookup hdescriptors), infra,
              runtime.mem_hierarchy infra, hmethod⟩
          · cases h
          · cases h
      · cases h

theorem fail_of_createMethodsForFakeProperty
    (h : u.createMethodsForFakeProperty runtime infra getter setter neededSel = .fail u') :
    u' = u := by
  simp only [createMethodsForFakeProperty] at h
  split at h
  · cases h
    rfl
  · split at h
    · cases h
    · split at h <;> cases h

/-- A message that nobody handles leaves a descriptor at most. -/
theorem gains_of_send_fail (h : u.send runtime infra sel = .fail u') :
    Gains runtime infra sel u u' := by
  unfold send at h
  split at h
  · cases h
  · unfold forward at h
    split at h
    · simp only [createMethodsForProperty] at h
      split at h
      · cases h
      · split at h
        · cases h
        · split at h
          · split at h <;> cases h
          · cases h
    · split at h
      · unfold createAccessorMethods at h
        split at h
        · cases h
          exact .nothing rfl rfl fun _ h => h
        next desc known hdescriptor =>
          obtain ⟨-, hmethods, hlookup, hdescriptors⟩ := of_descriptorOrFake hdescriptor
          have hknown : u' = known := by
            split at h
            · rw [createGetterFromSetter_eq] at h
              exact fail_of_createMethodsForFakeProperty h
            · cases h
            · cases h
              rfl
          subst hknown
          exact .nothing hmethods hlookup hdescriptors
      · cases h
        exact .nothing rfl rfl fun _ h => h

omit [DecidableEq Cls] in
theorem Gains.isSome_methods (h : Gains runtime infra sel u u') {other : Cls} {otherSel : Sel}
    (hsome : (u.methods other otherSel).isSome = true) :
    (u'.methods other otherSel).isSome = true := by
  have hextends : ∀ {property accessors}, Extends runtime infra property accessors u u' →
      (u'.methods other otherSel).isSome = true := by
    intro property accessors hextends
    by_cases hsame : other = infra
    · subst hsame
      exact hextends.isSome_methods otherSel (.inl hsome)
    · rwa [hextends.methods_of_ne other hsame]
  cases h with
  | nothing hmethods => rwa [hmethods]
  | declared _ h => exact hextends h
  | madeUp _ h => exact hextends h

omit [DecidableEq Cls] in
theorem Gains.descriptors (h : Gains runtime infra sel u u') {otherSel : Sel}
    (hsome : (u.descriptors otherSel).isSome = true) :
    (u'.descriptors otherSel).isSome = true := by
  cases h with
  | nothing _ _ h => exact h otherSel hsome
  | declared _ h => exact h.descriptors otherSel hsome
  | madeUp _ h => exact h.descriptors otherSel hsome

end Create

end Universe

end MulleObjC.Dynamic
