import MulleObjC.Dynamic.Creation

/-!
# What an object says it responds to

`-respondsToSelector:` decides on its own if `-forward:` would create a method. The two agree
if nothing keeps the method from being created.
-/

namespace MulleObjC.Dynamic

variable {Cls Sel : Type*} [DecidableEq Cls] [DecidableEq Sel]

namespace Universe

variable (runtime : Runtime Cls Sel) (u : Universe Cls Sel)

/-- `MulleObjectRespondsToSelector` -/
def mulleObjectRespondsToSelector (infra : Cls) (sel : Sel) : Except Failure Bool :=
  match searchDynamicProperty (runtime.properties infra) sel with
  | some _ => .ok true
  | none =>
    if runtime.isFullyDynamic infra then
      match u.descriptors sel with
      | some desc => .ok (desc.methodfamily = .getter || desc.methodfamily = .setter)
      | none =>
        match u.hashstrings sel with
        | some name =>
          let accessorType := accessorTypeFromString name
          .ok (accessorType = .getter || accessorType = .setter)
        -- The name is searched for a colon, though it is `NULL`.
        | none => .error .undefined
    else .ok false

/-- `-respondsToSelector:` and `+instancesRespondToSelector:` -/
def respondsToSelector (infra : Cls) (sel : Sel) : Except Failure Bool :=
  if (u.searchMethod runtime infra sel).isSome then .ok true
  else u.mulleObjectRespondsToSelector runtime infra sel

/-- A message is handled by a method, which may be created for it. -/
def Handles (infra : Cls) (sel : Sel) : Prop := ∃ imp u', u.send runtime infra sel = .method imp u'

/-- The answer is right, and there is one. -/
def AnswersRight (infra : Cls) (sel : Sel) : Prop :=
  ∃ answer, u.respondsToSelector runtime infra sel = .ok answer ∧
    (answer = true ↔ u.Handles runtime infra sel)

/-- Nothing keeps `-forward:` from what `-respondsToSelector:` expects of it: the accessors of a
declared property can be created. In fully dynamic mode the selector has a name at least, is not
that of a getter, and if it is that of a setter, then `-forward:` knows of the mode and the getter
does not exist yet. -/
def Expected (infra : Cls) (sel : Sel) : Prop :=
  u.searchMethod runtime infra sel = none →
  match searchDynamicProperty (runtime.properties infra) sel with
  | some property => (u.descriptors sel).isSome = true ∧
    u.TakesMethodlist runtime infra property ∧
    ∀ a ∈ u.missingAccessors infra property, u.CanInit runtime property a.1 a.2.methodid
  | none => runtime.isFullyDynamic infra = true →
    ((u.descriptors sel).isSome = true ∨ (u.hashstrings sel).isSome = true) ∧
    ∀ r ∈ u.descriptorOrFake sel, r.1.methodfamily ≠ .getter ∧
      (r.1.methodfamily = .setter → runtime.haveFullyDynamic = true ∧
        let getter := runtime.methodidFromString (getterName r.1.name)
        u.searchMethod runtime infra getter = none ∧
          ∀ key, u.getterLookup sel = some key → key = getter)

variable {runtime} {u} {infra : Cls} {sel : Sel} {property : Property Sel}

theorem createAccessorMethods_isMethod (hnone : u.searchMethod runtime infra sel = none) :
    (∃ imp u', u.createAccessorMethods runtime infra sel = .method imp u') ↔
      ∃ r ∈ u.descriptorOrFake sel, r.1.methodfamily = .setter ∧
        u.searchMethod runtime infra (runtime.methodidFromString (getterName r.1.name)) = none ∧
        ∀ key, u.getterLookup sel = some key →
          key = runtime.methodidFromString (getterName r.1.name) := by
  unfold createAccessorMethods
  cases hdescriptor : u.descriptorOrFake sel with
  | none => simp
  | some r =>
    obtain ⟨desc, known⟩ := r
    obtain ⟨rfl, hmethods, hlookup, -⟩ := of_descriptorOrFake hdescriptor
    cases hfamily : desc.methodfamily with
    | getter => simp [createSetterFromGetter_eq, hfamily]
    | other => simp [hfamily]
    | setter =>
      simp only [hfamily, createGetterFromSetter_eq]
      rw [createMethodsForFakeProperty_isMethod (.inr rfl), searchMethod_congr hmethods,
        searchMethod_congr hmethods, hlookup]
      simp [hfamily, hnone, getterOfSetter]

/-- Without a declared property `-forward:` has to know of the fully dynamic mode. -/
theorem forward_isMethod_of_isFullyDynamic
    (hproperty : searchDynamicProperty (runtime.properties infra) sel = none)
    (hnone : u.searchMethod runtime infra sel = none)
    (hdynamic : runtime.isFullyDynamic infra = true) :
    (∃ imp u', u.forward runtime infra sel = .method imp u') ↔
      runtime.haveFullyDynamic = true ∧
      ∃ r ∈ u.descriptorOrFake sel, r.1.methodfamily = .setter ∧
        u.searchMethod runtime infra (runtime.methodidFromString (getterName r.1.name)) = none ∧
        ∀ key, u.getterLookup sel = some key →
          key = runtime.methodidFromString (getterName r.1.name) := by
  rw [← createAccessorMethods_isMethod hnone]
  simp only [forward, hproperty, hdynamic, Bool.and_true]
  cases runtime.haveFullyDynamic <;> simp

/-- The answer is right if and only if nothing is in the way of `-forward:`. -/
theorem answersRight_iff (runtime : Runtime Cls Sel) (u : Universe Cls Sel) (infra : Cls)
    (sel : Sel) : u.AnswersRight runtime infra sel ↔ u.Expected runtime infra sel := by
  unfold AnswersRight Expected Handles respondsToSelector send
  cases hsearch : u.searchMethod runtime infra sel with
  | some imp => simp
  | none =>
    simp only [Option.isSome_none, Bool.false_eq_true, if_false, forall_true_left]
    unfold mulleObjectRespondsToSelector
    cases hproperty : searchDynamicProperty (runtime.properties infra) sel with
    | some property =>
      rw [forward_isMethod_of_property hproperty hsearch]
      simp
    | none =>
      by_cases hdynamic : runtime.isFullyDynamic infra = true
      · rw [forward_isMethod_of_isFullyDynamic hproperty hsearch hdynamic]
        simp only [hdynamic, if_true, forall_true_left]
        unfold descriptorOrFake
        cases u.descriptors sel with
        | some desc =>
          cases hfamily : desc.methodfamily <;> simp [hfamily]
        | none =>
          cases u.hashstrings sel with
          | none => simp
          | some name =>
            cases htype : accessorTypeFromString name <;> simp [createFakeAccessor, htype]
      · simp [forward, hproperty, hdynamic]

/-- In fully dynamic mode a selector without a name crashes the question. A setter is promised,
but `-forward:` does not know of the mode. -/
theorem unknown_selector_not_answered :
    (∃ (runtime : Runtime Unit (List Char)) (u : Universe Unit (List Char)),
      u.respondsToSelector runtime () ['x'] = .error .undefined) ∧
    (∃ (runtime : Runtime Unit (List Char)) (u : Universe Unit (List Char)),
      runtime.haveFullyDynamic = false ∧
        u.respondsToSelector runtime () ['s', 'e', 't', 'X', ':'] = .ok true ∧
        u.send runtime () ['s', 'e', 't', 'X', ':'] = .fail u) ∧
    ¬ ∀ (runtime : Runtime Unit (List Char)) (u : Universe Unit (List Char)) (sel : List Char),
      u.AnswersRight runtime () sel := by
  have hcrash : (loaded []).respondsToSelector
      { oneClass [] with isFullyDynamic := fun _ => true } () ['x'] = .error .undefined := rfl
  refine ⟨⟨_, _, hcrash⟩, ⟨{ oneClass [] with isFullyDynamic := fun _ => true },
    { loaded [] with hashstrings := some }, rfl, rfl, rfl⟩, fun hclaim => ?_⟩
  obtain ⟨answer, hanswer, -⟩ := hclaim _ _ ['x']
  cases hcrash.symm.trans hanswer

end Universe

end MulleObjC.Dynamic
