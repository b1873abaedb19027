import MulleObjC.Copying.Property

/-!
# Clearing properties

`_MulleObjCInstanceClearProperties` walks over the properties of an object in one of three
modes. A finalize clears what is not readonly, and it may run more than once. In the end the
readonly properties are cleared.
-/

namespace MulleObjC.Copying

open Holdings

/-- `MulleObjCPropertyClearMode` -/
inductive ClearMode
  | nonReadOnly
  | all
  | onlyReadOnly
  deriving DecidableEq, Repr

/-- The mode does not skip the property. -/
def ClearMode.takes {Ivar : Type*} (mode : ClearMode) (p : Property Ivar) : Bool :=
  match mode with
  | nonReadOnly => !p.isReadonly
  | all => true
  | onlyReadOnly => p.isReadonly

/-- A property of a kind that is cleared. -/
def Property.isClearable {Ivar : Type*} (p : Property Ivar) : Bool :=
  !p.isForward && (p.setterclear || p.isCstring || p.autoreleaseclear)

/-- The property lists that a walk visits. -/
def Infraclass.visitedLists {Ivar : Type*} (infra : Infraclass Ivar) :
    List (List (Property Ivar)) :=
  if infra.dontInheritCategories then infra.propertylists.take 1 else infra.propertylists

/-- A class, as far as its properties are cleared. -/
structure ClearableClass (Ivar : Type*) where
  /-- The class, and then its superclasses. -/
  hierarchy : List (Infraclass Ivar)
  type : Ivar → IvarType
  /-- The runtime sets `MULLE_OBJC_INFRACLASS_HAS_CLEARABLE_PROPERTY`. -/
  hasClearableProperty : ∀ infra ∈ hierarchy, infra.hasClearableProperty = false →
    ∀ ps ∈ infra.propertylists, ∀ p ∈ ps, p.isClearable = false
  type_ivar : ∀ infra ∈ hierarchy, ∀ ps ∈ infra.propertylists, ∀ p ∈ ps, p.isClearable = true →
    ∀ v, p.ivar = some v → type v = if p.isCstring then .string else .object

variable {Ivar Allocator : Type*} [DecidableEq Ivar]

/-- The callback of a walk. -/
def ClearMode.callback (mode : ClearMode) :
    Instance Ivar Allocator → Property Ivar → Outcome Ivar Allocator :=
  match mode with
  | nonReadOnly => Instance.clearPropertyNoReadOnly
  | all => Instance.clearProperty
  | onlyReadOnly => Instance.clearPropertyOnlyReadOnly

/-- `_MulleObjCInstanceClearProperties` -/
def Instance.clearProperties (cls : ClearableClass Ivar) (self : Instance Ivar Allocator)
    (mode : ClearMode) : Outcome Ivar Allocator :=
  walk mode.callback (walkClearableProperties cls.hierarchy) self

/-- One or more finalize passes, and the final clear of the readonly properties. -/
def lifeModes (passes : ℕ) : List ClearMode :=
  List.replicate (passes + 1) .nonReadOnly ++ [.onlyReadOnly]

/-- The life of an object. -/
def Instance.life (cls : ClearableClass Ivar) (self : Instance Ivar Allocator) (passes : ℕ) :
    Outcome Ivar Allocator :=
  walk (fun self mode => self.clearProperties cls mode) (lifeModes passes) self

omit [DecidableEq Ivar] in
/-- What a clearable ivar with a value owns. -/
def ClearableClass.resource (cls : ClearableClass Ivar) (allocator : Allocator) (v : Ivar) :
    ℕ → Resource Allocator :=
  match cls.type v with
  | .string => .string allocator
  | _ => .object

/-- What the ivars own. -/
def ClearableClass.held (cls : ClearableClass Ivar) (obj : Instance Ivar Allocator) (v : Ivar) :
    Option (Resource Allocator) :=
  if obj.ivar v = 0 then none else some (cls.resource obj.allocator v (obj.ivar v))

/-- The ivars of the clearable properties in some property lists of each class. -/
def ClearableClass.clearable (cls : ClearableClass Ivar)
    (lists : Infraclass Ivar → List (List (Property Ivar))) : Finset Ivar :=
  (((cls.hierarchy.flatMap fun infra => (lists infra).flatten).filter (·.isClearable)).filterMap
    (·.ivar)).toFinset

/-- A callback does something about a property. -/
def ActsOn (mode : ClearMode) (p : Property Ivar) : Prop :=
  ∃ obj : Instance Ivar Unit, mode.callback obj p ≠ ([], obj)

/-- The property lists of the classes with a clearable property, each with its place. One
class comes after the other, and the last list of a class comes first. -/
def visits (lists : Infraclass Ivar → List (List (Property Ivar)))
    (hierarchy : List (Infraclass Ivar)) : List ((ℕ × ℕ) × List (Property Ivar)) :=
  hierarchy.zipIdx.flatMap fun c =>
    if c.1.hasClearableProperty then
      (lists c.1).zipIdx.reverse.map fun l => ((c.2, l.2), l.1)
    else []

/-- The clearable properties in some property lists of each class are cleared once. -/
structure ClearedOnce [DecidableEq Allocator]
    (lists : Infraclass Ivar → List (List (Property Ivar))) (cls : ClearableClass Ivar)
    (obj : Instance Ivar Allocator) (passes : ℕ) : Prop where
  disjoint : ∀ p : Property Ivar, ¬ (ActsOn .nonReadOnly p ∧ ActsOn .onlyReadOnly p)
  union : ∀ p : Property Ivar, ActsOn .all p ↔ ActsOn .nonReadOnly p ∨ ActsOn .onlyReadOnly p
  walks : walkClearableProperties cls.hierarchy = (visits lists cls.hierarchy).flatMap (·.2)
  nodup : ((visits lists cls.hierarchy).map (·.1)).Nodup
  mem_visits : ∀ i j ps, ((i, j), ps) ∈ visits lists cls.hierarchy ↔
    ∃ infra, cls.hierarchy[i]? = some infra ∧ infra.hasClearableProperty = true ∧
      (lists infra)[j]? = some ps
  released : ∀ q, releases (obj.life cls passes).1 q =
    count (cls.clearable lists) (cls.held obj) q
  zero : ∀ v ∈ cls.clearable lists, (obj.life cls passes).2.ivar v = 0
  again : ∀ mode, (obj.clearProperties cls mode).2.clearProperties cls mode =
    ([], (obj.clearProperties cls mode).2)
  after : ∀ mode, (obj.life cls passes).2.clearProperties cls mode =
    ([], (obj.life cls passes).2)

/-! ### What a callback does -/

/-- The ivar that a callback clears. -/
def ClearMode.target (mode : ClearMode) (p : Property Ivar) : Option Ivar :=
  if p.isClearable && mode.takes p then p.ivar else none

/-- Clear an ivar that a clearable property may have. -/
def Instance.clear (cls : ClearableClass Ivar) (self : Instance Ivar Allocator) (v : Ivar) :
    Outcome Ivar Allocator :=
  self.clearIvar (cls.resource self.allocator v) v

section Callback

variable {mode : ClearMode} {p : Property Ivar} {obj : Instance Ivar Allocator}

theorem clearProperty_of_not_isClearable (hp : p.isClearable = false) :
    obj.clearProperty p = ([], obj) := by
  unfold Instance.clearProperty
  cases hforward : p.isForward with
  | true => rfl
  | false =>
    have hkinds : (p.setterclear || p.isCstring || p.autoreleaseclear) = false := by
      simpa [Property.isClearable, hforward] using hp
    simp only [Bool.or_eq_false_iff] at hkinds
    obtain ⟨⟨hsetter, hcstring⟩, hauto⟩ := hkinds
    simp [hsetter, hcstring, hauto]

/-- Whatever the kind of the property is, the callback clears its ivar. -/
theorem clearProperty_of_isClearable (hp : p.isClearable = true) :
    obj.clearProperty p = match p.ivar with
      | none => ([], obj)
      | some v => if p.isCstring then obj.setPropertyCstringNull v
        else obj.setPropertyValueNil v := by
  simp only [Property.isClearable, Bool.and_eq_true, Bool.not_eq_true'] at hp
  obtain ⟨hforward, hkinds⟩ := hp
  unfold Instance.clearProperty
  rw [hforward, if_neg Bool.false_ne_true]
  cases hsetter : p.setterclear with
  | true => rfl
  | false =>
    rw [if_neg Bool.false_ne_true]
    cases hcstring : p.isCstring with
    | true => cases p.ivar <;> rfl
    | false =>
      have hauto : p.autoreleaseclear = true := by simpa [hsetter, hcstring] using hkinds
      rw [hauto]
      cases p.ivar <;> rfl

theorem callback_eq : mode.callback obj p =
    if mode.takes p then obj.clearProperty p else ([], obj) := by
  cases mode with
  | all => rfl
  | nonReadOnly =>
    change obj.clearPropertyNoReadOnly p = _
    unfold Instance.clearPropertyNoReadOnly ClearMode.takes
    cases p.isReadonly <;> rfl
  | onlyReadOnly => rfl

/-- A callback clears the ivar of a clearable property that its mode takes. -/
theorem callback_eq_clear {cls : ClearableClass Ivar}
    (htype : p.isClearable = true → ∀ v, p.ivar = some v →
      cls.type v = if p.isCstring then .string else .object) :
    mode.callback obj p = match mode.target p with
      | none => ([], obj)
      | some v => obj.clear cls v := by
  rw [callback_eq, ClearMode.target]
  cases htakes : mode.takes p with
  | false => simp
  | true =>
    cases hp : p.isClearable with
    | false => simpa using clearProperty_of_not_isClearable hp
    | true =>
      rw [if_pos rfl, clearProperty_of_isClearable hp, Bool.and_self, if_pos rfl]
      cases hv : p.ivar with
      | none => rfl
      | some v =>
        have htype := htype hp v hv
        cases hcstring : p.isCstring with
        | true =>
          rw [hcstring, if_pos rfl] at htype
          simp [Instance.clear, ClearableClass.resource, htype, Instance.setPropertyCstringNull]
        | false =>
          rw [hcstring, if_neg Bool.false_ne_true] at htype
          simp [Instance.clear, ClearableClass.resource, htype, Instance.setPropertyValueNil]

/-- A callback acts on the clearable properties that its mode takes. -/
theorem actsOn_iff : ActsOn mode p ↔
    p.isClearable = true ∧ mode.takes p = true ∧ p.ivar.isSome = true := by
  constructor
  · rintro ⟨obj, hobj⟩
    rw [callback_eq] at hobj
    have htakes : mode.takes p = true := by
      by_contra htakes
      exact hobj (if_neg htakes)
    rw [if_pos htakes] at hobj
    have hp : p.isClearable = true := by
      by_contra hp
      exact hobj (clearProperty_of_not_isClearable (Bool.not_eq_true _ ▸ hp))
    refine ⟨hp, htakes, ?_⟩
    rw [clearProperty_of_isClearable hp] at hobj
    cases hv : p.ivar with
    | none => simp [hv] at hobj
    | some v => rfl
  · rintro ⟨hp, htakes, hv⟩
    obtain ⟨v, hv⟩ := Option.isSome_iff_exists.mp hv
    refine ⟨⟨(), fun _ => 1⟩, ?_⟩
    rw [callback_eq, if_pos htakes, clearProperty_of_isClearable hp, hv]
    simp only
    split <;> simp [Instance.setPropertyCstringNull, Instance.setPropertyValueNil,
      Instance.clearIvar]

end Callback

/-! ### What a walk visits -/

section Visits

omit [DecidableEq Ivar]

variable {lists : Infraclass Ivar → List (List (Property Ivar))}
  {hierarchy : List (Infraclass Ivar)}

theorem visits_flatMap (hierarchy : List (Infraclass Ivar)) :
    (visits Infraclass.visitedLists hierarchy).flatMap (·.2) =
      walkClearableProperties hierarchy := by
  have hlists : ∀ (infra : Infraclass Ivar) (i : ℕ),
      ((infra.visitedLists.zipIdx.reverse.map fun l => ((i, l.2), l.1)).flatMap (·.2)) =
        infra.properties := by
    intro infra i
    rw [List.flatMap_map]
    change (infra.visitedLists.zipIdx.reverse.map Prod.fst).flatten = infra.properties
    rw [List.map_reverse, List.zipIdx_map_fst]
    rfl
  have hclass : (visits Infraclass.visitedLists hierarchy).flatMap (·.2) =
      (hierarchy.zipIdx.map Prod.fst).flatMap fun infra =>
        if infra.hasClearableProperty then infra.properties else [] := by
    rw [visits, List.flatMap_assoc, List.flatMap_map]
    congr 1
    funext c
    split
    · exact hlists c.1 c.2
    · rfl
  rw [hclass, List.zipIdx_map_fst, walkClearableProperties]
  clear hclass
  induction hierarchy with
  | nil => rfl
  | cons infra hierarchy ih =>
    rw [List.flatMap_cons, ih, List.filter_cons]
    split <;> simp

theorem nodup_visits : ((visits lists hierarchy).map (·.1)).Nodup := by
  rw [visits, List.map_flatMap, List.nodup_flatMap]
  constructor
  · rintro ⟨infra, i⟩ -
    split
    · have hplaces : ((lists infra).zipIdx.map Prod.snd).Nodup := by
        rw [List.zipIdx_map_snd]
        exact List.nodup_range'
      have hplaces := hplaces.map (Prod.mk_right_injective i)
      rw [List.map_map] at hplaces
      rw [List.map_map, List.map_reverse, List.nodup_reverse]
      exact hplaces
    · exact List.nodup_nil
  · have hindices : (hierarchy.zipIdx.map Prod.snd).Nodup := by
      rw [List.zipIdx_map_snd]
      exact List.nodup_range'
    refine (List.pairwise_map.mp hindices).imp ?_
    rintro ⟨infra, i⟩ ⟨infra', i'⟩ hne
    simp only [Function.onFun, List.disjoint_left]
    rintro ⟨k, j⟩ hk hk'
    have hk : k = i := by
      split at hk
      · simp only [List.map_map, List.mem_map] at hk
        obtain ⟨l, -, hl⟩ := hk
        exact (Prod.mk.inj hl).1.symm
      · cases hk
    have hk' : k = i' := by
      split at hk'
      · simp only [List.map_map, List.mem_map] at hk'
        obtain ⟨l, -, hl⟩ := hk'
        exact (Prod.mk.inj hl).1.symm
      · cases hk'
    exact hne (hk.symm.trans hk')

theorem mem_visits {i j : ℕ} {ps : List (Property Ivar)} :
    ((i, j), ps) ∈ visits lists hierarchy ↔ ∃ infra, hierarchy[i]? = some infra ∧
      infra.hasClearableProperty = true ∧ (lists infra)[j]? = some ps := by
  rw [visits, List.mem_flatMap]
  constructor
  · rintro ⟨⟨infra, k⟩, hinfra, hps⟩
    split at hps
    · rename_i hbit
      obtain ⟨⟨ps', j'⟩, hl, heq⟩ := List.mem_map.mp hps
      obtain ⟨hplace, rfl⟩ := Prod.mk.inj heq
      obtain ⟨rfl, rfl⟩ := Prod.mk.inj hplace
      exact ⟨infra, List.mem_zipIdx_iff_getElem?.mp hinfra, hbit,
        List.mem_zipIdx_iff_getElem?.mp (List.mem_reverse.mp hl)⟩
    · cases hps
  · rintro ⟨infra, hinfra, hbit, hps⟩
    refine ⟨(infra, i), List.mem_zipIdx_iff_getElem?.mpr hinfra, ?_⟩
    rw [if_pos hbit]
    exact List.mem_map.mpr ⟨(ps, j),
      List.mem_reverse.mpr (List.mem_zipIdx_iff_getElem?.mpr hps), rfl⟩

end Visits

/-! ### Clearing ivars -/

section Clear

variable {cls : ClearableClass Ivar} {obj : Instance Ivar Allocator} {vs : List Ivar} {v : Ivar}

omit [DecidableEq Ivar] in
theorem walk_append {Item : Type*} (f : Instance Ivar Allocator → Item → Outcome Ivar Allocator)
    (is js : List Item) (obj : Instance Ivar Allocator) :
    Instance.walk f (is ++ js) obj = (Instance.walk f is obj).andThen (Instance.walk f js) := by
  induction is generalizing obj with
  | nil => rfl
  | cons i is ih => simp [Instance.walk, Outcome.andThen, ih]

theorem clear_of_eq_zero (hv : obj.ivar v = 0) : obj.clear cls v = ([], obj) := if_pos hv

theorem clear_ivar : (obj.clear cls v).2.ivar = Function.update obj.ivar v 0 := by
  unfold Instance.clear Instance.clearIvar
  split
  · rename_i hv
    rw [← hv, Function.update_eq_self]
  · rfl

theorem clear_allocator : (obj.clear cls v).2.allocator = obj.allocator := by
  unfold Instance.clear Instance.clearIvar
  split <;> rfl

/-- A walk zeroes its ivars and no other. -/
theorem walk_clear_ivar (w : Ivar) : (Instance.walk (Instance.clear cls) vs obj).2.ivar w =
    if w ∈ vs then 0 else obj.ivar w := by
  induction vs generalizing obj with
  | nil => rfl
  | cons v vs ih =>
    change (Instance.walk (Instance.clear cls) vs (obj.clear cls v).2).2.ivar w = _
    rw [ih, clear_ivar]
    by_cases hw : w = v
    · subst hw
      simp
    · simp [hw]

/-- A walk over ivars that are zero does nothing. -/
theorem walk_clear_of_zero (hvs : ∀ v ∈ vs, obj.ivar v = 0) :
    Instance.walk (Instance.clear cls) vs obj = ([], obj) := by
  induction vs with
  | nil => rfl
  | cons v vs ih =>
    rw [Instance.walk, clear_of_eq_zero (hvs v List.mem_cons_self)]
    exact ih fun w hw => hvs w (List.mem_cons_of_mem v hw)

variable [DecidableEq Allocator]

/-- Clearing an ivar releases what it held. -/
theorem releases_clear {owned : Finset Ivar} (hv : v ∈ owned) (q : Resource Allocator) :
    releases (obj.clear cls v).1 q + count owned (cls.held (obj.clear cls v).2) q =
      count owned (cls.held obj) q := by
  by_cases hzero : obj.ivar v = 0
  · simp [clear_of_eq_zero hzero]
  · have hheld : cls.held (obj.clear cls v).2 = Function.update (cls.held obj) v none := by
      funext w
      unfold ClearableClass.held
      rw [clear_ivar, clear_allocator]
      by_cases hw : w = v
      · subst hw
        simp
      · simp [hw]
    have h := count_update (r := q) (cls.held obj) hv none
    have hv : cls.held obj v = some (cls.resource obj.allocator v (obj.ivar v)) := if_neg hzero
    have hreleases : releases (obj.clear cls v).1 q =
        if cls.resource obj.allocator v (obj.ivar v) = q then 1 else 0 := by
      simp [Instance.clear, Instance.clearIvar, hzero]
    rw [hheld, hreleases]
    simp only [hv, Option.some.injEq, reduceCtorEq, if_false] at h
    omega

theorem releases_walk_add {owned : Finset Ivar} (hvs : ∀ v ∈ vs, v ∈ owned)
    (q : Resource Allocator) :
    releases (Instance.walk (Instance.clear cls) vs obj).1 q +
        count owned (cls.held (Instance.walk (Instance.clear cls) vs obj).2) q =
      count owned (cls.held obj) q := by
  induction vs generalizing obj with
  | nil => simp [Instance.walk]
  | cons v vs ih =>
    have hfirst : releases (obj.clear cls v).1 q + count owned (cls.held (obj.clear cls v).2) q =
        count owned (cls.held obj) q := releases_clear (hvs v List.mem_cons_self) q
    have hrest : releases (Instance.walk (Instance.clear cls) vs (obj.clear cls v).2).1 q +
        count owned (cls.held (Instance.walk (Instance.clear cls) vs (obj.clear cls v).2).2) q =
          count owned (cls.held (obj.clear cls v).2) q :=
      ih fun w hw => hvs w (List.mem_cons_of_mem v hw)
    simp only [Instance.walk, Outcome.andThen, releases_append]
    omega

/-- A walk releases what its ivars held, however often it comes to each of them. -/
theorem releases_walk (q : Resource Allocator) :
    releases (Instance.walk (Instance.clear cls) vs obj).1 q =
      count vs.toFinset (cls.held obj) q := by
  have h : releases (Instance.walk (Instance.clear cls) vs obj).1 q +
      count vs.toFinset (cls.held (Instance.walk (Instance.clear cls) vs obj).2) q =
        count vs.toFinset (cls.held obj) q :=
    releases_walk_add (fun v hv => List.mem_toFinset.mpr hv) q
  have hzero : count vs.toFinset
      (cls.held (Instance.walk (Instance.clear cls) vs obj).2) q = 0 := by
    apply count_eq_zero
    intro v hv
    rw [ClearableClass.held, walk_clear_ivar, if_pos (List.mem_toFinset.mp hv), if_pos rfl]
    exact (Option.some_ne_none q).symm
  omega

end Clear

/-! ### The life of an object -/

section Life

variable {cls : ClearableClass Ivar} {obj : Instance Ivar Allocator} {mode : ClearMode}
  {p : Property Ivar} {v : Ivar} {passes : ℕ}

omit [DecidableEq Ivar] in
theorem mem_visitedLists {infra : Infraclass Ivar} {ps : List (Property Ivar)}
    (hps : ps ∈ infra.visitedLists) : ps ∈ infra.propertylists := by
  unfold Infraclass.visitedLists at hps
  split at hps
  · exact List.mem_of_mem_take hps
  · exact hps

omit [DecidableEq Ivar] in
theorem mem_walkClearableProperties : p ∈ walkClearableProperties cls.hierarchy ↔
    ∃ infra ∈ cls.hierarchy, infra.hasClearableProperty = true ∧
      ∃ ps ∈ infra.visitedLists, p ∈ ps := by
  have hproperties : ∀ infra : Infraclass Ivar,
      p ∈ infra.properties ↔ ∃ ps ∈ infra.visitedLists, p ∈ ps := by
    intro infra
    change p ∈ infra.visitedLists.reverse.flatten ↔ _
    simp
  simp only [walkClearableProperties, List.mem_flatMap, List.mem_filter, hproperties, and_assoc]

/-- The ivars that a walk clears. -/
def ClearableClass.targets (cls : ClearableClass Ivar) (mode : ClearMode) : List Ivar :=
  (walkClearableProperties cls.hierarchy).filterMap mode.target

omit [DecidableEq Ivar] in
theorem mem_targets : v ∈ cls.targets mode ↔ ∃ p ∈ walkClearableProperties cls.hierarchy,
    p.isClearable = true ∧ mode.takes p = true ∧ p.ivar = some v := by
  simp only [ClearableClass.targets, List.mem_filterMap, ClearMode.target,
    Option.ite_none_right_eq_some, Bool.and_eq_true, and_assoc]

theorem walk_callback {ps : List (Property Ivar)}
    (hps : ∀ p ∈ ps, p ∈ walkClearableProperties cls.hierarchy) :
    Instance.walk mode.callback ps obj =
      Instance.walk (Instance.clear cls) (ps.filterMap mode.target) obj := by
  induction ps generalizing obj with
  | nil => rfl
  | cons p ps ih =>
    have hrest (obj : Instance Ivar Allocator) : Instance.walk mode.callback ps obj =
        Instance.walk (Instance.clear cls) (ps.filterMap mode.target) obj :=
      ih fun q hq => hps q (List.mem_cons_of_mem p hq)
    obtain ⟨infra, hinfra, -, qs, hqs, hp⟩ :=
      mem_walkClearableProperties.mp (hps p List.mem_cons_self)
    have hcallback : mode.callback obj p = match mode.target p with
        | none => ([], obj)
        | some v => obj.clear cls v :=
      callback_eq_clear (cls.type_ivar infra hinfra qs (mem_visitedLists hqs) p hp)
    rw [Instance.walk, hcallback, List.filterMap_cons]
    cases mode.target p with
    | none => simpa [Outcome.andThen] using hrest obj
    | some v => simp [Instance.walk, Outcome.andThen, hrest]

theorem clearProperties_eq :
    obj.clearProperties cls mode = Instance.walk (Instance.clear cls) (cls.targets mode) obj :=
  walk_callback fun _ hp => hp

theorem walk_modes (modes : List ClearMode) :
    Instance.walk (fun self mode => self.clearProperties cls mode) modes obj =
      Instance.walk (Instance.clear cls) (modes.flatMap cls.targets) obj := by
  induction modes generalizing obj with
  | nil => rfl
  | cons mode modes ih =>
    rw [List.flatMap_cons, walk_append, Instance.walk, clearProperties_eq]
    simp only [Outcome.andThen, ih]

theorem life_eq : obj.life cls passes =
    Instance.walk (Instance.clear cls) ((lifeModes passes).flatMap cls.targets) obj :=
  walk_modes _

omit [DecidableEq Ivar] in
/-- In a life every property comes up in some mode. -/
theorem mem_lifeTargets : v ∈ (lifeModes passes).flatMap cls.targets ↔
    ∃ p ∈ walkClearableProperties cls.hierarchy, p.isClearable = true ∧ p.ivar = some v := by
  simp only [List.mem_flatMap, mem_targets]
  constructor
  · rintro ⟨mode, -, p, hp, hclearable, -, hv⟩
    exact ⟨p, hp, hclearable, hv⟩
  · rintro ⟨p, hp, hclearable, hv⟩
    cases hreadonly : p.isReadonly with
    | true =>
      exact ⟨.onlyReadOnly, by simp [lifeModes], p, hp, hclearable, hreadonly, hv⟩
    | false =>
      exact ⟨.nonReadOnly, by simp [lifeModes], p, hp, hclearable,
        by simp [ClearMode.takes, hreadonly], hv⟩

/-- A class that a walk passes over has no clearable property. -/
theorem mem_clearable : v ∈ cls.clearable Infraclass.visitedLists ↔
    ∃ p ∈ walkClearableProperties cls.hierarchy, p.isClearable = true ∧ p.ivar = some v := by
  simp only [ClearableClass.clearable, List.mem_toFinset, List.mem_filterMap, List.mem_filter,
    List.mem_flatMap, List.mem_flatten, mem_walkClearableProperties]
  constructor
  · rintro ⟨p, ⟨⟨infra, hinfra, ps, hps, hp⟩, hclearable⟩, hv⟩
    refine ⟨p, ⟨infra, hinfra, ?_, ps, hps, hp⟩, hclearable, hv⟩
    by_contra hbit
    have h := cls.hasClearableProperty infra hinfra (Bool.not_eq_true _ ▸ hbit) ps
      (mem_visitedLists hps) p hp
    exact Bool.false_ne_true (h.symm.trans hclearable)
  · rintro ⟨p, ⟨infra, hinfra, -, ps, hps, hp⟩, hclearable, hv⟩
    exact ⟨p, ⟨⟨infra, hinfra, ps, hps, hp⟩, hclearable⟩, hv⟩

theorem toFinset_lifeTargets : ((lifeModes passes).flatMap cls.targets).toFinset =
    cls.clearable Infraclass.visitedLists := by
  ext v
  rw [List.mem_toFinset, mem_lifeTargets, mem_clearable]

/-- Clearing what is zero does nothing. -/
theorem clearProperties_of_zero (hzero : ∀ v ∈ cls.targets mode, obj.ivar v = 0) :
    obj.clearProperties cls mode = ([], obj) := by
  rw [clearProperties_eq]
  exact walk_clear_of_zero hzero

theorem clearProperties_twice :
    (obj.clearProperties cls mode).2.clearProperties cls mode =
      ([], (obj.clearProperties cls mode).2) := by
  apply clearProperties_of_zero
  intro v hv
  rw [clearProperties_eq, walk_clear_ivar, if_pos hv]

theorem life_ivar_eq_zero (hv : v ∈ (lifeModes passes).flatMap cls.targets) :
    (obj.life cls passes).2.ivar v = 0 := by
  rw [life_eq, walk_clear_ivar, if_pos hv]

theorem clearProperties_life :
    (obj.life cls passes).2.clearProperties cls mode = ([], (obj.life cls passes).2) := by
  apply clearProperties_of_zero
  intro v hv
  obtain ⟨p, hp, hclearable, -, hv⟩ := mem_targets.mp hv
  exact life_ivar_eq_zero (mem_lifeTargets.mpr ⟨p, hp, hclearable, hv⟩)

/-- Every clearable property of the property lists that a class inherits is cleared once. -/
theorem clearedOnce_visitedLists [DecidableEq Allocator] (cls : ClearableClass Ivar)
    (obj : Instance Ivar Allocator) (passes : ℕ) :
    ClearedOnce Infraclass.visitedLists cls obj passes where
  disjoint p := by
    simp only [actsOn_iff, ClearMode.takes]
    rintro ⟨⟨-, hnot, -⟩, -, hreadonly, -⟩
    simp [hreadonly] at hnot
  union p := by
    simp only [actsOn_iff, ClearMode.takes]
    cases p.isReadonly <;> simp
  walks := (visits_flatMap cls.hierarchy).symm
  nodup := nodup_visits
  mem_visits _ _ _ := mem_visits
  released q := by rw [life_eq, releases_walk, toFinset_lifeTargets]
  zero v hv := life_ivar_eq_zero (mem_lifeTargets.mpr (mem_clearable.mp hv))
  again _ := clearProperties_twice
  after _ := clearProperties_life

end Life

/-- A class whose categories are not inherited, with a property in one of them. -/
def categoryClass : ClearableClass Unit where
  hierarchy := [{
    propertylists := [[], [{ isRetain := true, setterclear := true, ivar := some () }]]
    dontInheritCategories := true }]
  type _ := .object
  hasClearableProperty := by simp
  type_ivar := by simp

/-- The property of such a category is not cleared. -/
theorem not_clearedOnce_propertylists : ¬ ClearedOnce Infraclass.propertylists categoryClass
    (⟨(), fun _ => 1⟩ : Instance Unit Unit) 0 := by
  intro h
  have h := h.zero () (by decide)
  exact absurd h (by decide)

end MulleObjC.Copying
