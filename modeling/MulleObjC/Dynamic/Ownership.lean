import MulleObjC.Dynamic.Calls
import MulleObjC.Library.Machine

/-!
# Values of dynamic properties are given up as they were stored

An accessor decides how a value is stored when it is created, and `-finalize` decides again,
by a search for a property with the key. What an accessor acquires is released once, if the
two agree.
-/

namespace MulleObjC.Dynamic

open Holdings Machine OwningMap

variable {Cls Sel : Type*} [DecidableEq Cls] [DecidableEq Sel]

/-- The accessor stores a value as `-finalize` gives it up: as it is if the property is a scalar,
as a duplicate if it is a string, and as an object if it is neither or does not exist. -/
def Implementation.Suits (runtime : Runtime Cls Sel) (property : Option (Property Sel))
    (imp : Implementation) : Prop :=
  let ivarType := property.map (·.ivarType runtime)
  match imp.storage with
  | none => True
  | some .raw => ivarType = some .voidPointer
  | some .string => ivarType = some .strdup
  | some .object => ivarType ≠ some .voidPointer ∧ ivarType ≠ some .strdup

namespace State

variable (runtime : Runtime Cls Sel) (s : State Cls Sel)

/-- An accessor that stores a value, or replaces one, suits the property that is found for the
key. -/
def Suited : Act Cls Sel → Prop
  | .call sel m => ∀ imp u key, s.u.send runtime s.self.cls sel = .method imp u →
    accessKey runtime u s.self.cls imp sel = .ok key →
    s.self.get key = 0 ∧ imp.value m = 0 ∨
      imp.Suits runtime (searchDynamicProperty (runtime.properties s.self.cls) key)
  | .other _ _ => True

/-- What the value of a key owns, as `-finalize` sees it. -/
def owns (key : Sel) : ℕ → Option (Sel × Resource) :=
  (s.self.finalStorage key runtime).resource key

/-- All that was acquired and not released yet is owned by the values. -/
def Balanced (es : Report Sel) : Prop :=
  ∀ r, acquisitions es r = releases es r + owned (s.owns runtime) s.self.ivars r

end State

section Balance

variable {runtime : Runtime Cls Sel} {self self' : Instance Cls Sel} {storage : Storage} {key : Sel}
  {value : ℕ} {es fs : Report Sel} {s s' : State Cls Sel} {a : Act Cls Sel}

omit [DecidableEq Sel] in
@[simp] theorem resource_zero (storage : Storage) (key : Sel) : storage.resource key 0 = none := by
  cases storage <;> simp [Storage.resource]

omit [DecidableEq Cls] in
@[simp] theorem owns_zero (key : Sel) : s.owns runtime key 0 = none := resource_zero _ key

omit [DecidableEq Cls] [DecidableEq Sel] in
theorem suits_iff {imp : Implementation} {property : Option (Property Sel)}
    (hstorage : imp.storage = some storage) :
    imp.Suits runtime property ↔ Instance.releaseStorage runtime property = storage := by
  cases property with
  | none => cases storage <;> simp [Implementation.Suits, Instance.releaseStorage, hstorage]
  | some property =>
    simp only [Implementation.Suits, Instance.releaseStorage, hstorage, Option.map_some,
      Option.some.injEq, ne_eq]
    cases storage <;> cases property.ivarType runtime <;> simp

omit [DecidableEq Cls] in
theorem bind_lookup {owns : Sel → ℕ → Option (Sel × Resource)} (hzero : ∀ key, owns key 0 = none) :
    (self.ivars.lookup key).bind (owns key) = owns key (self.get key) := by
  unfold Instance.get
  cases self.ivars.lookup key with
  | none => exact (hzero key).symm
  | some old => rfl

omit [DecidableEq Cls] in
/-- What the values own changes as the report says. -/
theorem Stores.owned_eq {owns : Sel → ℕ → Option (Sel × Resource)}
    (h : Stores self self' storage key value es) (hzero : ∀ key, owns key 0 = none)
    (howns : self.get key = 0 ∧ value = 0 ∨ owns key = storage.resource key) (r : Sel × Resource) :
    owned owns self'.ivars r + releases es r = owned owns self.ivars r + acquisitions es r := by
  cases h with
  | kept _ hes hivars =>
    subst hes
    rw [hivars]
    rfl
  | replaced hivars hacquisitions hreleases =>
    have hinsert := owned_insert owns self.ivars key value r
    rw [bind_lookup hzero] at hinsert
    rw [hivars, hacquisitions, hreleases]
    obtain ⟨hget, hvalue⟩ | howns := howns
    · simp only [hget, hvalue, hzero, resource_zero] at hinsert ⊢
      omega
    · rw [howns] at hinsert
      omega

theorem step_cls (h : s.step runtime a = some (fs, s')) : s'.self.cls = s.self.cls := by
  obtain ⟨returned, hacts⟩ := acts_of_step h
  cases hacts with
  | handled hsend hperform => exact (perform_stores hperform).1
  | unhandled | other => rfl

theorem step_owns (h : s.step runtime a = some (fs, s')) : s'.owns runtime = s.owns runtime := by
  unfold State.owns Instance.finalStorage
  rw [step_cls h]

/-- A step under the condition changes what the values own as it reports. -/
theorem step_owned_eq (hsuited : s.Suited runtime a) (h : s.step runtime a = some (fs, s'))
    (r : Sel × Resource) :
    owned (s'.owns runtime) s'.self.ivars r + releases fs r =
      owned (s.owns runtime) s.self.ivars r + acquisitions fs r := by
  rw [step_owns h]
  obtain ⟨returned, hacts⟩ := acts_of_step h
  cases hacts with
  | unhandled | other => rfl
  | @handled sel m imp _ returned _ hsend hperform =>
    obtain ⟨-, -, ⟨-, rfl, hself⟩ | ⟨storage, key, hstorage, hkey, hstores⟩⟩ :=
      perform_stores hperform
    · rw [hself]
      rfl
    · refine hstores.owned_eq owns_zero ?_ r
      obtain hzero | hsuits := hsuited imp s'.u key hsend hkey
      · exact .inl hzero
      · have hfinal : s.self.finalStorage key runtime = storage := (suits_iff hstorage).mp hsuits
        exact .inr (congrArg (Storage.resource key) hfinal)

theorem step_balanced (hsuited : s.Suited runtime a) (hbalanced : s.Balanced runtime es)
    (h : s.step runtime a = some (fs, s')) : s'.Balanced runtime (es ++ fs) := by
  intro r
  have hstep := step_owned_eq hsuited h r
  have hbefore := hbalanced r
  rw [acquisitions_append, releases_append]
  omega

theorem run_balanced {u : Universe Cls Sel} {cls : Cls}
    (hrun : RunWhile (State.step runtime) (State.Suited runtime) ⟨u, Instance.init cls⟩ es s) :
    s.Balanced runtime es :=
  hrun.invariant_trace (fun es s => s.Balanced runtime es)
    (fun hsuited hbalanced h => step_balanced hsuited hbalanced h) fun _ => rfl

omit [DecidableEq Cls] in
theorem finalize_report (s : State Cls Sel) :
    (s.self.finalize runtime).1 = giveUp (s.owns runtime) s.self.ivars := rfl

/-- As long as each accessor suits its property, nothing is released before it is acquired, and
all that was acquired for a key is released once by the accessors and `-finalize`. -/
theorem values_released_once {u : Universe Cls Sel} {cls : Cls}
    (hrun : RunWhile (State.step runtime) (State.Suited runtime) ⟨u, Instance.init cls⟩ es s)
    (r : Sel × Resource) :
    releases es r ≤ acquisitions es r ∧
      releases (es ++ (s.self.finalize runtime).1) r =
        acquisitions (es ++ (s.self.finalize runtime).1) r := by
  have hbalanced := run_balanced hrun r
  rw [finalize_report, releases_append, acquisitions_append, releases_giveUp, acquisitions_giveUp]
  omega

omit [DecidableEq Sel] in
/-- Different ways to store a value own different things. -/
theorem storage_of_resource_eq {other : Storage} (hvalue : value ≠ 0)
    (h : storage.resource key value = other.resource key value) : storage = other := by
  cases storage <;> cases other <;> simp_all [Storage.resource]

/-- A string is replaced by another one, and freed. -/
theorem values_released_once_strings : ∃ (es : Report (List Char)) (s : State Unit (List Char)),
    releases es (['x'], .string 7) = 1 ∧
      releases (es ++ (s.self.finalize (oneClass [propertyX .charptr])).1) (['x'], .string 8) = 1 ∧
      ∀ r, releases (es ++ (s.self.finalize (oneClass [propertyX .charptr])).1) r =
        acquisitions (es ++ (s.self.finalize (oneClass [propertyX .charptr])).1) r := by
  have hrun : ∃ (es : Report (List Char)) (s : State Unit (List Char)),
      RunWhile (State.step (oneClass [propertyX .charptr]))
        (State.Suited (oneClass [propertyX .charptr])) ⟨universeX .charptr, .init ()⟩ es s ∧
      releases es (['x'], .string 7) = 1 ∧
      releases (es ++ (s.self.finalize (oneClass [propertyX .charptr])).1)
        (['x'], .string 8) = 1 := by
    refine ⟨_, _, ((RunWhile.refl _).tail
      (.call ['s', 'e', 't', 'X', ':'] ⟨1, [65], 7⟩) ?_ rfl).tail
      (.call ['s', 'e', 't', 'X', ':'] ⟨1, [66], 8⟩) ?_ rfl, rfl, rfl⟩
    · rintro _ _ _ ⟨⟩ ⟨⟩
      exact .inr rfl
    · rintro _ _ _ ⟨⟩ ⟨⟩
      exact .inr rfl
  obtain ⟨es, s, hrun, hold, hnew⟩ := hrun
  exact ⟨es, s, hold, hnew, fun r => (values_released_once hrun r).2⟩

/-- The object of an `assign` property is released, but was never retained. -/
theorem assign_released :
    (∃ (es : Report (List Char)) (s : State Unit (List Char)),
      Run (State.step (oneClass [propertyX .assignId])) ⟨universeX .assignId, .init ()⟩ es s ∧
      acquisitions es (['x'], .object 5) = 0 ∧
      releases (s.self.finalize (oneClass [propertyX .assignId])).1 (['x'], .object 5) = 1) ∧
    ¬ ∀ (runtime : Runtime Unit (List Char)) (u : Universe Unit (List Char))
      (es : Report (List Char)) (s : State Unit (List Char)),
      Run (State.step runtime) ⟨u, .init ()⟩ es s → ∀ r,
        releases (es ++ (s.self.finalize runtime).1) r =
          acquisitions (es ++ (s.self.finalize runtime).1) r := by
  have hrun : ∃ (es : Report (List Char)) (s : State Unit (List Char)),
      Run (State.step (oneClass [propertyX .assignId])) ⟨universeX .assignId, .init ()⟩ es s ∧
      acquisitions es (['x'], .object 5) = 0 ∧
      releases (s.self.finalize (oneClass [propertyX .assignId])).1 (['x'], .object 5) = 1 :=
    ⟨_, _, (RunWhile.refl _).tail (.call ['s', 'e', 't', 'X', ':'] { param := 5 }) trivial rfl,
      rfl, rfl⟩
  refine ⟨hrun, fun hclaim => ?_⟩
  obtain ⟨es, s, hrun, hacquired, hreleased⟩ := hrun
  have hbalance := hclaim _ _ es s hrun (['x'], .object 5)
  rw [releases_append, acquisitions_append, finalize_report, acquisitions_giveUp,
    ← finalize_report] at hbalance
  omega

/-- An accessor that does not suit its property stores the first value of a key. Then something
is not released, or is released that was not acquired. -/
theorem not_released_once {u : Universe Cls Sel} {cls : Cls}
    (hrun : RunWhile (State.step runtime) (State.Suited runtime) ⟨u, Instance.init cls⟩ es s)
    {sel : Sel} {m : Message} {imp : Implementation} (hstep : s.step runtime (.call sel m) =
      some (fs, s')) (hsend : s.u.send runtime s.self.cls sel = .method imp s'.u)
    (hkey : accessKey runtime s'.u s.self.cls imp sel = .ok key)
    (hsuits : ¬ imp.Suits runtime (searchDynamicProperty (runtime.properties s.self.cls) key))
    (hempty : s.self.get key = 0) (hvalue : imp.value m ≠ 0) :
    ∃ r, releases (es ++ fs ++ (s'.self.finalize runtime).1) r ≠
      acquisitions (es ++ fs ++ (s'.self.finalize runtime).1) r := by
  have howns := step_owns hstep
  obtain ⟨returned, hacts⟩ := acts_of_step hstep
  cases hacts with
  | unhandled hfail => cases hsend.symm.trans hfail
  | @handled _ _ _ _ returned _ hmethod hperform =>
    cases hsend.symm.trans hmethod
    obtain ⟨-, -, ⟨hnone, -⟩ | ⟨storage, key', hstorage, hkey', hstores⟩⟩ :=
      perform_stores hperform
    · exact absurd (by simp [Implementation.Suits, hnone]) hsuits
    · cases hkey.symm.trans hkey'
      cases hstores with
      | kept hsame => exact absurd (hsame.symm.trans hempty) hvalue
      | replaced hivars hacquisitions hreleases =>
        by_contra! hbalance
        have hresource : s.owns runtime key (imp.value m) = storage.resource key (imp.value m) := by
          apply Option.ext
          intro r
          have hrun := run_balanced hrun r
          have hinsert := owned_insert (s.owns runtime) s.self.ivars key (imp.value m) r
          rw [bind_lookup owns_zero, hempty, owns_zero] at hinsert
          have hfinal := hbalance r
          rw [finalize_report, howns, hivars] at hfinal
          simp only [releases_append, acquisitions_append, releases_giveUp, acquisitions_giveUp,
            hacquisitions, hreleases, hempty, resource_zero] at hfinal
          have hcount : (if s.owns runtime key (imp.value m) = some r then 1 else 0) =
              if storage.resource key (imp.value m) = some r then 1 else 0 := by
            simp only [reduceCtorEq, if_false] at hinsert hfinal
            omega
          split_ifs at hcount with howned hstored <;> simp_all
        exact hsuits ((suits_iff hstorage).mpr (storage_of_resource_eq hvalue hresource))

end Balance

section Suits

variable (runtime : Runtime Cls Sel) (property : Property Sel)

omit [DecidableEq Cls] [DecidableEq Sel]

/-- Of the setters of declared properties, those for `assign` do not suit. -/
theorem suits_setterImplementation :
    (property.setterImplementation runtime).Suits runtime (some property) ↔
      property.ivarType runtime ≠ .assign := by
  rw [suits_iff (storage_setterImplementation runtime property), Instance.releaseStorage]
  cases property.ivarType runtime <;> simp [GenericType.storage]

/-- Of the setters of properties that are made up, only those that wrap the value suit. -/
theorem suits_setterImplementation_none :
    (property.setterImplementation runtime).Suits runtime none ↔
      (property.ivarType runtime).storage = .object := by
  rw [suits_iff (storage_setterImplementation runtime property), Instance.releaseStorage, eq_comm]

end Suits

end MulleObjC.Dynamic
