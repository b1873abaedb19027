import MulleObjC.Dynamic.Creation
import MulleObjC.Library.Machine

/-!
# The class that gets the methods

`_MulleObjCClassPointerSearchDynamicProperty` should put the class that declares the property
into `*infra_p`, so that `_MulleDynamicObjectForward` can add the methods there. It puts back
the class of the object.
-/

namespace MulleObjC.Dynamic

open Machine

variable {Cls Sel : Type*}

/-- Which class declares which properties. A class inherits from all classes behind it. -/
structure Declarations (runtime : Runtime Cls Sel) where
  declared : Cls → List (Property Sel)
  properties_eq : ∀ infra, runtime.properties infra = (runtime.hierarchy infra).flatMap declared
  nodup : ∀ infra, (runtime.hierarchy infra).Nodup
  chain : ∀ infra front superclass back, runtime.hierarchy infra = front ++ superclass :: back →
    ∀ cls ∈ front, superclass ∈ runtime.hierarchy cls

/-- The selectors of the accessors. -/
def Property.selectors (property : Property Sel) : List Sel := property.accessors.map Prod.snd

/-- A method list that was added to a class. -/
structure Generation (Cls Sel : Type*) where
  /-- The class with the methods. -/
  infra : Cls
  /-- The class that declares the property. -/
  declarer : Cls
  property : Property Sel
  /-- The selectors of the methods. -/
  selectors : List Sel

/-- The universe, with the method lists that were added so far. -/
structure World (Cls Sel : Type*) where
  u : Universe Cls Sel
  generations : List (Generation Cls Sel)

/-- A message to an instance of a class. -/
structure AccessorMessage (Cls Sel : Type*) where
  receiver : Cls
  sel : Sel

section Send

variable [DecidableEq Cls] [DecidableEq Sel] {runtime : Runtime Cls Sel}

/-- The walk with `search_methodid`: the `infra` and the `property` of its context, if it is
done. -/
def Declarations.searchMethodid (decl : Declarations runtime) (infra : Cls) (methodid : Sel) :
    Option (Cls × Property Sel) :=
  ((runtime.hierarchy infra).flatMap fun cls => (decl.declared cls).map (cls, ·)).find?
    (·.2.isFound methodid)

/-- `_MulleObjCClassPointerSearchDynamicProperty`: the property, and what `*infra_p` is then. -/
def Declarations.classPointerSearchDynamicProperty (decl : Declarations runtime) (infra : Cls)
    (methodid : Sel) : Option (Property Sel × Cls) :=
  (decl.searchMethodid infra methodid).map fun ctxt => (ctxt.2, infra)

/-- An accessor of a dynamic property is sent. Other messages, and those that fail, are no
steps. -/
def Declarations.step (decl : Declarations runtime) (w : World Cls Sel)
    (m : AccessorMessage Cls Sel) : Option (World Cls Sel) :=
  (decl.searchMethodid m.receiver m.sel).bind fun ctxt =>
    match w.u.send runtime m.receiver m.sel with
    | .method _ u =>
      if (w.u.searchMethod runtime m.receiver m.sel).isSome then
        some ⟨u, w.generations⟩
      else
        some ⟨u, w.generations ++ [⟨m.receiver, ctxt.1, ctxt.2,
          (w.u.missingAccessors m.receiver ctxt.2).map (·.2.methodid)⟩]⟩
    | _ => none

/-- The method list has a method for the selector, on the class or on one that inherits from
it. -/
def Generation.Gives (runtime : Runtime Cls Sel) (g : Generation Cls Sel) (cls : Cls) (sel : Sel) :
    Prop :=
  cls ∈ runtime.hierarchy g.infra ∧ sel ∈ g.selectors

/-- Every method list that was added is on the class that declares the property. There it and
every class that inherits from it find the accessors, and none of them has ever got a second
method for one. -/
def Installed (runtime : Runtime Cls Sel) (w : World Cls Sel) : Prop :=
  ∀ g ∈ w.generations, g.infra = g.declarer ∧
    (∀ cls, g.declarer ∈ runtime.hierarchy cls → ∀ sel ∈ g.property.selectors,
      (w.u.methods g.declarer sel).isSome = true ∧
        w.u.searchMethod runtime cls sel = w.u.methods g.declarer sel) ∧
    ∀ sel ∈ g.property.selectors, w.generations.Pairwise fun g₁ g₂ =>
      ¬(g₁.Gives runtime g.declarer sel ∧ g₂.Gives runtime g.declarer sel)

/-- An accessor without a method is sent to an instance of the very class that declares the
property. All of its accessors are known to the universe, no subclass has a method for one of
them, and no superclass has got methods for a property with the same accessor. -/
def Direct (decl : Declarations runtime) (w : World Cls Sel) (m : AccessorMessage Cls Sel) : Prop :=
  w.u.searchMethod runtime m.receiver m.sel = none →
  ∀ declarer property, decl.searchMethodid m.receiver m.sel = some (declarer, property) →
    declarer = m.receiver ∧
    (∀ sel ∈ property.selectors, (w.u.descriptors sel).isSome = true) ∧
    (∀ sel ∈ property.selectors, ∀ cls, declarer ∈ runtime.hierarchy cls → cls ≠ declarer →
      w.u.methods cls sel = none) ∧
    ∀ g ∈ w.generations, g.declarer ∈ runtime.hierarchy declarer → g.declarer ≠ declarer →
      ∀ sel ∈ g.property.selectors, sel ∉ property.selectors

/-- What the runs keep: the methods of the lists are on the declaring classes, and no class in
front of these hides one. -/
structure Kept (runtime : Runtime Cls Sel) (w : World Cls Sel) : Prop where
  declarer : ∀ g ∈ w.generations, g.infra = g.declarer
  isSome : ∀ g ∈ w.generations, ∀ sel ∈ g.property.selectors,
    (w.u.methods g.declarer sel).isSome = true
  none_below : ∀ g ∈ w.generations, ∀ sel ∈ g.property.selectors, ∀ cls,
    g.declarer ∈ runtime.hierarchy cls → cls ≠ g.declarer → w.u.methods cls sel = none
  selectors : ∀ g ∈ w.generations, ∀ sel ∈ g.selectors,
    (w.u.methods g.infra sel).isSome = true
  once : w.generations.Pairwise fun g₁ g₂ => g₁.infra = g₂.infra →
    ∀ sel ∈ g₁.selectors, sel ∉ g₂.selectors

variable {decl : Declarations runtime} {w w' : World Cls Sel} {m : AccessorMessage Cls Sel}

omit [DecidableEq Cls] in
/-- The context has the property that is found among all. -/
theorem searchDynamicProperty_eq (decl : Declarations runtime) (infra : Cls) (methodid : Sel) :
    searchDynamicProperty (runtime.properties infra) methodid =
      (decl.searchMethodid infra methodid).map Prod.snd := by
  have hproperties : runtime.properties infra =
      ((runtime.hierarchy infra).flatMap fun cls => (decl.declared cls).map (cls, ·)).map
        Prod.snd := by
    rw [decl.properties_eq, List.map_flatMap]
    congr 1
    funext cls
    rw [List.map_map]
    exact (List.map_id _).symm
  rw [searchDynamicProperty, hproperties, List.find?_map, Declarations.searchMethodid]
  rfl

omit [DecidableEq Cls] in
/-- The methods are added to the class of the object, wherever the property is declared. -/
theorem classPointerSearchDynamicProperty_snd {infra infra' : Cls} {methodid : Sel}
    {property : Property Sel}
    (h : decl.classPointerSearchDynamicProperty infra methodid = some (property, infra')) :
    infra' = infra := by
  obtain ⟨ctxt, _, hctxt⟩ := Option.map_eq_some_iff.mp h
  exact (Prod.mk.inj hctxt).2.symm

omit [DecidableEq Cls] [DecidableEq Sel] in
/-- A class finds the method of a superclass, if no class in front has one. -/
theorem searchMethod_eq (decl : Declarations runtime) {u : Universe Cls Sel} {cls declarer : Cls}
    {sel : Sel} (hmem : declarer ∈ runtime.hierarchy cls)
    (hsome : (u.methods declarer sel).isSome = true)
    (hnone : ∀ c, declarer ∈ runtime.hierarchy c → c ≠ declarer → u.methods c sel = none) :
    u.searchMethod runtime cls sel = u.methods declarer sel := by
  obtain ⟨front, back, hsplit⟩ := List.append_of_mem hmem
  have hnodup := decl.nodup cls
  rw [hsplit] at hnodup
  have hfront : front.findSome? (u.methods · sel) = none := by
    rw [List.findSome?_eq_none_iff]
    intro c hc
    apply hnone c (decl.chain cls front declarer back hsplit c hc)
    rintro rfl
    exact (List.nodup_append.mp hnodup).2.2 c hc c List.mem_cons_self rfl
  obtain ⟨imp, himp⟩ := Option.isSome_iff_exists.mp hsome
  rw [Universe.searchMethod, hsplit, List.findSome?_append, hfront, Option.none_or,
    List.findSome?_cons, himp]

omit [DecidableEq Cls] [DecidableEq Sel] in
theorem Kept.installed (decl : Declarations runtime) (h : Kept runtime w) :
    Installed runtime w := by
  intro g hg
  refine ⟨h.declarer g hg, ?_, ?_⟩
  · intro cls hcls sel hsel
    have hsome := h.isSome g hg sel hsel
    exact ⟨hsome, searchMethod_eq decl hcls hsome (h.none_below g hg sel hsel)⟩
  · intro sel hsel
    -- A list with the selector can only be on the declaring class itself.
    have hinfra : ∀ g' ∈ w.generations, g'.Gives runtime g.declarer sel →
        g'.infra = g.declarer := by
      rintro g' hg' ⟨hcls, hmem⟩
      by_contra hne
      have hsome := h.selectors g' hg' sel hmem
      rw [h.none_below g hg sel hsel g'.infra hcls hne] at hsome
      simp at hsome
    apply h.once.imp_of_mem
    rintro g₁ g₂ hg₁ hg₂ honce ⟨h₁, h₂⟩
    exact honce ((hinfra g₁ hg₁ h₁).trans (hinfra g₂ hg₂ h₂).symm) sel h₁.2 h₂.2

/-- A step changes nothing, or it is a method list for a property that was found. -/
theorem of_step (h : decl.step w m = some w') :
    w' = w ∨ w.u.searchMethod runtime m.receiver m.sel = none ∧
      ∃ declarer property, decl.searchMethodid m.receiver m.sel = some (declarer, property) ∧
        Universe.Extends runtime m.receiver property
          ((w.u.missingAccessors m.receiver property).map fun a => (a.1, a.2.methodid))
          w.u w'.u ∧
        w'.generations = w.generations ++ [⟨m.receiver, declarer, property,
          (w.u.missingAccessors m.receiver property).map (·.2.methodid)⟩] := by
  obtain ⟨⟨declarer, property⟩, hsearch, hsend⟩ := Option.bind_eq_some_iff.mp h
  have hproperty := searchDynamicProperty_eq decl m.receiver m.sel
  rw [hsearch] at hproperty
  cases hfound : w.u.searchMethod runtime m.receiver m.sel with
  | some imp =>
    left
    simp only [Universe.send, hfound, Option.isSome_some, if_true, Option.some.injEq] at hsend
    exact hsend.symm
  | none =>
    right
    refine ⟨rfl, declarer, property, hsearch, ?_⟩
    simp only [Universe.send, Universe.forward, hfound, hproperty, Option.map_some] at hsend
    split at hsend
    next imp u hcreate =>
      obtain rfl : _ = w' := by simpa using hsend
      exact ⟨(Universe.of_createMethodsForProperty hcreate).1, rfl⟩
    · cases hsend

section Generate

variable {property : Property Sel} {infra : Cls}

omit [DecidableEq Cls] [DecidableEq Sel] in
/-- The method list has methods for accessors of the property that had none. -/
theorem of_mem_missing {u : Universe Cls Sel} {sel : Sel}
    (h : sel ∈ (u.missingAccessors infra property).map (·.2.methodid)) :
    sel ∈ property.selectors ∧ u.methods infra sel = none := by
  obtain ⟨a, ha, rfl⟩ := List.mem_map.mp h
  obtain ⟨hmem, hnone, _⟩ := Universe.mem_missingAccessors.mp ha
  exact ⟨List.mem_map_of_mem hmem, hnone⟩

variable {u u' : Universe Cls Sel}
  (h : Universe.Extends runtime infra property
    ((u.missingAccessors infra property).map fun a => (a.1, a.2.methodid)) u u')

include h

omit [DecidableEq Cls] [DecidableEq Sel] in
/-- No other selector gets a method. -/
theorem methods_eq_none_of_extends {cls : Cls} {sel : Sel} (hnone : u.methods cls sel = none)
    (hother : cls ≠ infra ∨ sel ∉ property.selectors) : u'.methods cls sel = none := by
  by_cases hcls : cls = infra
  · subst hcls
    rw [Option.eq_none_iff_forall_ne_some]
    intro imp himp
    rcases h.methods sel imp himp with hold | ⟨accessorType, hmem, _⟩
    · simp [hnone] at hold
    · obtain ⟨a, ha, hpair⟩ := List.mem_map.mp hmem
      obtain ⟨_, rfl⟩ := Prod.mk.inj hpair
      have hsel := (of_mem_missing (List.mem_map_of_mem ha)).1
      exact (hother.resolve_left fun hne => hne rfl) hsel
  · rwa [h.methods_of_ne cls hcls]

omit [DecidableEq Cls] [DecidableEq Sel] in
/-- Methods stay. -/
theorem isSome_methods_of_extends {cls : Cls} {sel : Sel}
    (hsome : (u.methods cls sel).isSome = true) : (u'.methods cls sel).isSome = true := by
  by_cases hcls : cls = infra
  · subst hcls
    exact h.isSome_methods sel (.inl hsome)
  · rwa [h.methods_of_ne cls hcls]

omit [DecidableEq Cls] [DecidableEq Sel] in
/-- Afterwards each accessor has a method, if the universe knows it. -/
theorem isSome_methods_selectors
    (hknown : ∀ sel ∈ property.selectors, (u.descriptors sel).isSome = true) :
    ∀ sel ∈ property.selectors, (u'.methods infra sel).isSome = true := by
  intro sel hsel
  apply h.isSome_methods sel
  cases hmethod : u.methods infra sel with
  | some imp => exact .inl rfl
  | none =>
    right
    obtain ⟨desc, hdesc⟩ := Option.isSome_iff_exists.mp (hknown sel hsel)
    obtain ⟨⟨accessorType, _⟩, hmem, rfl⟩ := List.mem_map.mp hsel
    have hid := u.methodid_of_descriptors _ desc hdesc
    have hmissing : (accessorType, desc) ∈ u.missingAccessors infra property := by
      rw [Universe.mem_missingAccessors]
      simp only [hid]
      exact ⟨hmem, hmethod, hdesc⟩
    exact ⟨_, List.mem_map_of_mem hmissing, hid⟩

end Generate

/-- A step keeps the methods on the declaring classes. -/
theorem Kept.step (h : Kept runtime w) (hdirect : Direct decl w m)
    (hstep : decl.step w m = some w') : Kept runtime w' := by
  rcases of_step hstep with rfl | ⟨hnone, declarer, property, hsearch, hextends, hgenerations⟩
  · exact h
  obtain ⟨rfl, hknown, hbelow, habove⟩ := hdirect hnone declarer property hsearch
  have hmem {g : Generation Cls Sel} : g ∈ w'.generations → g ∈ w.generations ∨
      g = ⟨m.receiver, m.receiver, property,
        (w.u.missingAccessors m.receiver property).map (·.2.methodid)⟩ := by
    rw [hgenerations, List.mem_append, List.mem_singleton]
    exact id
  constructor
  case declarer =>
    intro g hg
    rcases hmem hg with hg | rfl
    · exact h.declarer g hg
    · rfl
  case isSome =>
    intro g hg sel hsel
    rcases hmem hg with hg | rfl
    · exact isSome_methods_of_extends hextends (h.isSome g hg sel hsel)
    · exact isSome_methods_selectors hextends hknown sel hsel
  case none_below =>
    intro g hg sel hsel cls hcls hne
    rcases hmem hg with hg | rfl
    · apply methods_eq_none_of_extends hextends (h.none_below g hg sel hsel cls hcls hne)
      by_cases hreceiver : cls = m.receiver
      · subst hreceiver
        exact .inr (habove g hg hcls (Ne.symm hne) sel hsel)
      · exact .inl hreceiver
    · exact methods_eq_none_of_extends hextends (hbelow sel hsel cls hcls hne) (.inl hne)
  case selectors =>
    intro g hg sel hsel
    rcases hmem hg with hg | rfl
    · exact isSome_methods_of_extends hextends (h.selectors g hg sel hsel)
    · exact isSome_methods_selectors hextends hknown sel (of_mem_missing hsel).1
  case once =>
    rw [hgenerations, List.pairwise_append]
    refine ⟨h.once, List.pairwise_singleton _ _, ?_⟩
    intro g hg g' hg' hinfra sel hsel hmissing
    obtain rfl := List.mem_singleton.mp hg'
    have hsome := h.selectors g hg sel hsel
    rw [hinfra, (of_mem_missing hmissing).2] at hsome
    simp at hsome

/-- In every run in which accessors without methods are only sent to instances of the class
that declares the property, and no other class of the hierarchy interferes, the methods are
where they belong. -/
theorem installed_of_run (decl : Declarations runtime) (u : Universe Cls Sel)
    {events : List Empty}
    (hrun : RunWhile (silent decl.step) (Direct decl) ⟨u, []⟩ events w') :
    Installed runtime w' := by
  have hkept : Kept runtime w' := by
    refine hrun.invariant (Kept runtime) ?_ ⟨by simp, by simp, by simp, by simp, by simp⟩
    intro w m es w'' hdirect hinv hstep
    exact hinv.step hdirect (silent_eq_some.mp hstep)
  exact hkept.installed decl

end Send

/-- A class, `false`, that declares `x`, and a subclass of it. -/
def baseAndSubclass : Runtime Bool (List Char) where
  isVoidptrStorageCompatible _ := true
  hierarchy infra := if infra then [true, false] else [false]
  mem_hierarchy := by decide
  properties _ := [propertyX .retainId]
  isFullyDynamic _ := false
  haveFullyDynamic := false
  acceptsZeroedMethods _ := false
  methodidFromString name := name
  invalidMethodid := []
  valueSetterImplementation _ := false
  numberSetterImplementation _ := false

/-- The class declares `x`. -/
def baseDeclares : Declarations baseAndSubclass where
  declared infra := if infra then [] else [propertyX .retainId]
  properties_eq := by decide
  nodup := by decide
  chain := by
    intro infra front superclass back h cls hcls
    cases front with
    | nil => simp at hcls
    | cons c front =>
      have htail : superclass ∈ (baseAndSubclass.hierarchy infra).tail := by simp [h]
      have hbase : superclass = false := by
        revert superclass
        cases infra <;> simp [baseAndSubclass]
      subst hbase
      cases cls <;> decide

/-- The accessors of `x` are known. -/
def accessorsKnown : Universe Bool (List Char) :=
  .loaded [⟨['x'], ['x'], ⟨.retainId, none⟩, .getter⟩,
    ⟨['s', 'e', 't', 'X', ':'], ['s', 'e', 't', 'X', ':'], ⟨.other, some .retainId⟩, .setter⟩]

/-- The class itself is asked for `x` first. -/
theorem base_installed : ∃ w, baseDeclares.step ⟨accessorsKnown, []⟩ ⟨false, ['x']⟩ = some w ∧
    Installed baseAndSubclass w := by
  have hsome : (baseDeclares.step ⟨accessorsKnown, []⟩ ⟨false, ['x']⟩).isSome = true := by decide
  obtain ⟨w, hw⟩ := Option.isSome_iff_exists.mp hsome
  refine ⟨w, hw, ?_⟩
  have hdirect : Direct baseDeclares ⟨accessorsKnown, []⟩ ⟨false, ['x']⟩ := by
    intro _ declarer property hsearch
    have hx : baseDeclares.searchMethodid false ['x'] = some (false, propertyX .retainId) := by
      decide
    obtain ⟨rfl, rfl⟩ := Prod.mk.inj (Option.some.inj (hx.symm.trans hsearch))
    exact ⟨rfl, by decide, fun _ _ _ _ _ => rfl, by simp⟩
  have hrun : RunWhile (silent baseDeclares.step) (Direct baseDeclares) ⟨accessorsKnown, []⟩
      ([] ++ []) w := (RunWhile.refl _).tail ⟨false, ['x']⟩ hdirect (silent_eq_some.mpr hw)
  exact installed_of_run baseDeclares accessorsKnown hrun

/-- The subclass is asked for `x` first, and keeps the methods for itself. -/
theorem subclass_keeps_methods :
    ¬ ∀ (runtime : Runtime Bool (List Char)) (decl : Declarations runtime)
      (u : Universe Bool (List Char)) (events : List Empty) (w : World Bool (List Char)),
      Run (silent decl.step) ⟨u, []⟩ events w → Installed runtime w := by
  intro h
  have hsome : (baseDeclares.step ⟨accessorsKnown, []⟩ ⟨true, ['x']⟩).isSome = true := by decide
  obtain ⟨w, hw⟩ := Option.isSome_iff_exists.mp hsome
  have hinfra : ((baseDeclares.step ⟨accessorsKnown, []⟩ ⟨true, ['x']⟩).elim [] fun w =>
      w.generations.map fun g => (g.infra, g.declarer)) = [(true, false)] := by decide
  rw [hw, Option.elim_some] at hinfra
  have hinstalled := h _ baseDeclares accessorsKnown [] w
    ((RunWhile.refl _).tail ⟨true, ['x']⟩ trivial (silent_eq_some.mpr hw))
  obtain ⟨g, hg, hpair⟩ := List.mem_map.mp (hinfra ▸ List.mem_singleton_self _ :
    (true, false) ∈ w.generations.map fun g => (g.infra, g.declarer))
  obtain ⟨hself, hbase⟩ := Prod.mk.inj hpair
  have hsame := (hinstalled g hg).1
  rw [hself, hbase] at hsame
  exact Bool.noConfusion hsame

end MulleObjC.Dynamic
