import MulleObjC.Autolock.Cache

/-!
# Coherence of the second cache

The second cache is replaced if an added selector is found in it. That leaves the
remembered method for `forward:` as it is, and it leaves the cache as it is if the list
overrides `forward:` and only selectors without a method have been cached. A method list
keeps the cache coherent exactly if neither matters.
-/

namespace MulleObjC.Autolock

open Machine

variable {Sel SuperId Imp : Type*}

namespace ClassState

variable (cls : Class Sel SuperId Imp) {s s' : ClassState Sel SuperId Imp}

theorem searchImp_forward (s : ClassState Sel SuperId Imp) :
    s.searchImp cls cls.forward = (s.search cls.forward).map (·.implementation) := by
  simp [searchImp, searchMethodNofail]

/-- A selector without a method has the implementation of `forward:`. -/
theorem searchImp_of_search_eq_none {methodid : Sel} (h : s.search methodid = none) :
    s.searchImp cls methodid = (s.search cls.forward).map (·.implementation) := by
  simp [searchImp, searchMethodNofail, h]

theorem searchImp_of_search_eq_some {methodid : Sel} {method : Method Imp}
    (h : s.search methodid = some method) :
    s.searchImp cls methodid = some method.implementation := by
  simp [searchImp, searchMethodNofail, h]

variable {cls}

section Invalidate

variable [DecidableEq Sel]

/-- The cache is replaced for the first listed selector that it has. -/
theorem invalidateForMethods_eq (fcache : ProbeCache Sel Imp (Method Imp))
    (list : List (Sel × Method Imp)) :
    invalidateForMethods fcache list =
      if list.any fun m => (fcache.probe m.1).isSome then fcache.fresh else fcache := by
  induction list with
  | nil => rfl
  | cons m list ih =>
    obtain ⟨methodid, method⟩ := m
    rw [invalidateForMethods]
    by_cases hempty : fcache.entries.isEmpty = true
    · have hprobe := fcache.probe_eq_none_of_entries (List.isEmpty_iff.mp hempty)
      simp [invalidateSecondLevelCacheEntry, hempty, ih, hprobe]
    · cases hprobe : fcache.probe methodid with
      | none => simp only [invalidateSecondLevelCacheEntry, hempty, hprobe, ih, Option.isNone_none,
          Option.isSome_none, List.any_cons, Bool.false_or, Bool.false_eq_true, if_true, if_false]
      | some imp => simp [invalidateSecondLevelCacheEntry, hempty, hprobe]

/-- Without a list, nothing is left in the cache. -/
theorem agrees_invalidateSecondLevelCache_none (fcache : ProbeCache Sel Imp (Method Imp))
    (f : Sel → Option Imp) : (invalidateSecondLevelCache fcache none).Agrees f := by
  intro methodid imp h
  by_cases hempty : fcache.entries.isEmpty = true
  · have hprobe := fcache.probe_eq_none_of_entries (List.isEmpty_iff.mp hempty)
    simp [invalidateSecondLevelCache, invalidateSecondLevelCacheEntry, hempty, hprobe] at h
  · simp [invalidateSecondLevelCache, invalidateSecondLevelCacheEntry, hempty] at h

theorem userinfo_invalidateSecondLevelCache_none (fcache : ProbeCache Sel Imp (Method Imp)) :
    (invalidateSecondLevelCache fcache none).userinfo = fcache.userinfo := by
  by_cases hempty : fcache.entries.isEmpty = true
  · simp [invalidateSecondLevelCache, invalidateSecondLevelCacheEntry, hempty]
  · simp [invalidateSecondLevelCache, invalidateSecondLevelCacheEntry, hempty]

end Invalidate

variable [DecidableEq Sel]

/-- The entries of the cache, and the remembered method for `forward:`, are what a
search finds. -/
theorem coherent_iff : s.Coherent cls ↔ s.userinfo.Agrees (s.searchImp cls) ∧
    ∀ forward, s.userinfo.userinfo = some forward →
      s.searchImp cls cls.forward = some forward.implementation := by
  constructor
  · rintro ⟨himp, hsuper⟩
    constructor
    · intro methodid imp hprobe
      have h := himp methodid fun _ => true
      rw [getForwardImp, hprobe] at h
      exact h.symm
    · intro forward hforward
      rw [getSuperForwardImp, hforward] at hsuper
      exact hsuper.symm
  · rintro ⟨hagrees, hforward⟩
    constructor
    · intro methodid kept
      cases hprobe : s.userinfo.probe methodid with
      | some imp => simp only [getForwardImp, hprobe, hagrees hprobe]
      | none =>
        cases hsearch : s.searchMethodNofail cls methodid with
        | none => simp only [getForwardImp, hprobe, searchImp, hsearch, Option.map_none]
        | some method => simp only [getForwardImp, hprobe, searchImp, hsearch, Option.map_some]
    · cases hword : s.userinfo.userinfo with
      | some forward => simp only [getSuperForwardImp, hword, hforward forward hword]
      | none =>
        cases hsearch : s.searchMethodNofail cls cls.forward with
        | none => simp only [getSuperForwardImp, hword, searchImp, hsearch, Option.map_none]
        | some method =>
          simp only [getSuperForwardImp, hword, searchImp, hsearch, Option.map_some]

/-- Coherence does not depend on the first cache. -/
theorem Coherent.congr (hs : s.Coherent cls) (hsearch : s'.search = s.search)
    (huserinfo : s'.userinfo = s.userinfo) : s'.Coherent cls := by
  rw [coherent_iff] at hs ⊢
  have himp : s'.searchImp cls = s.searchImp cls := by
    funext methodid
    simp only [searchImp, searchMethodNofail, hsearch]
  rw [himp, huserinfo]
  exact hs

theorem coherent_initial (search : Sel → Option (Method Imp)) :
    (initial search : ClassState Sel SuperId Imp).Coherent cls := by
  rw [coherent_iff]
  constructor
  · exact .new
  · intro forward h
    cases h

/-- What `MulleObjectGetForwardImp` fills in is what it found. -/
theorem Coherent.getForwardImp (hs : s.Coherent cls) (methodid : Sel) (kept : Sel → Bool) :
    (s.getForwardImp cls methodid kept).2.Coherent cls := by
  cases hprobe : s.userinfo.probe methodid with
  | some imp => simpa only [ClassState.getForwardImp, hprobe] using hs
  | none =>
    cases hsearch : s.searchMethodNofail cls methodid with
    | none => simpa only [ClassState.getForwardImp, hprobe, hsearch] using hs
    | some method =>
      obtain ⟨hagrees, hforward⟩ := coherent_iff.mp hs
      have himp : s.searchImp cls methodid = some method.implementation := by
        rw [searchImp, hsearch, Option.map_some]
      simp only [ClassState.getForwardImp, hprobe, hsearch]
      exact coherent_iff.mpr ⟨hagrees.fill himp kept, hforward⟩

/-- What `MulleObjectGetSuperForwardImp` remembers is what it found. -/
theorem Coherent.getSuperForwardImp (hs : s.Coherent cls) :
    (s.getSuperForwardImp cls).2.Coherent cls := by
  cases hword : s.userinfo.userinfo with
  | some forward => simpa only [ClassState.getSuperForwardImp, hword] using hs
  | none =>
    cases hsearch : s.searchMethodNofail cls cls.forward with
    | none => simpa only [ClassState.getSuperForwardImp, hword, hsearch] using hs
    | some method =>
      obtain ⟨hagrees, -⟩ := coherent_iff.mp hs
      simp only [ClassState.getSuperForwardImp, hword, hsearch]
      refine coherent_iff.mpr ⟨hagrees, ?_⟩
      rintro _ ⟨⟩
      change s.searchImp cls cls.forward = _
      rw [searchImp, hsearch, Option.map_some]

theorem Coherent.invalidateCaches_none (hs : s.Coherent cls) :
    (s.invalidateCaches cls none).Coherent cls := by
  obtain ⟨-, hforward⟩ := coherent_iff.mp hs
  refine coherent_iff.mpr ⟨agrees_invalidateSecondLevelCache_none _ _, ?_⟩
  intro forward h
  apply hforward forward
  rw [← h]
  exact (userinfo_invalidateSecondLevelCache_none s.userinfo).symm

/-- The second cache has one of the selectors, so that it is replaced. -/
def HasListed (s : ClassState Sel SuperId Imp) (list : List (Sel × Method Imp)) : Prop :=
  (list.any fun m => (s.userinfo.probe m.1).isSome) = true

instance (list : List (Sel × Method Imp)) : Decidable (s.HasListed list) :=
  inferInstanceAs (Decidable (_ = true))

/-- The list leaves `forward:` with the implementation that it had. -/
def KeepsForward (cls : Class Sel SuperId Imp) (s : ClassState Sel SuperId Imp)
    (list : List (Sel × Method Imp)) : Prop :=
  (s.searchWith list cls.forward).map (·.implementation) =
    (s.search cls.forward).map (·.implementation)

/-- Neither the remembered method nor a cached selector depends on a `forward:` that the
list changes. -/
def Addable (cls : Class Sel SuperId Imp) (s : ClassState Sel SuperId Imp)
    (list : List (Sel × Method Imp)) : Prop :=
  s.KeepsForward cls list ∨
    s.userinfo.userinfo = none ∧
      (s.HasListed list ∨
        ∀ methodid, (s.userinfo.probe methodid).isSome = true → (s.search methodid).isSome = true)

/-- A selector that is cached while no listed one is, is not in the list. -/
theorem searchWith_of_probe {list : List (Sel × Method Imp)} (hlisted : ¬ s.HasListed list)
    {methodid : Sel} {imp : Imp} (hprobe : s.userinfo.probe methodid = some imp) :
    s.searchWith list methodid = s.search methodid := by
  have hlookup : list.lookup methodid = none := by
    rw [List.lookup_eq_none_iff]
    intro m hm
    by_contra hne
    have heq : methodid = m.1 := by simpa using hne
    apply hlisted
    rw [HasListed, List.any_eq_true]
    refine ⟨m, hm, ?_⟩
    rw [← heq, hprobe]
    rfl
  rw [searchWith, hlookup, Option.none_or]

/-- The remembered method stays right exactly if `forward:` keeps its implementation. -/
theorem Coherent.remembered_iff (hs : s.Coherent cls) (list : List (Sel × Method Imp)) :
    (∀ forward, s.userinfo.userinfo = some forward →
      (s.searchWith list cls.forward).map (·.implementation) = some forward.implementation) ↔
      s.KeepsForward cls list ∨ s.userinfo.userinfo = none := by
  obtain ⟨-, hforward⟩ := coherent_iff.mp hs
  rw [searchImp_forward] at hforward
  cases hword : s.userinfo.userinfo with
  | none => simp
  | some forward =>
    have hfound := hforward forward hword
    constructor
    · intro h
      rw [KeepsForward, h forward rfl, hfound]
      exact .inl rfl
    · rintro (hkeeps | hnone)
      · rintro _ ⟨⟩
        rw [← hfound]
        exact hkeeps
      · cases hnone

/-- A cache that is not replaced stays right exactly if `forward:` keeps its
implementation or no entry stems from `forward:`. -/
theorem Coherent.agrees_iff (hs : s.Coherent cls) {list : List (Sel × Method Imp)}
    (hlisted : ¬ s.HasListed list) :
    s.userinfo.Agrees ((s.addMethods cls list).searchImp cls) ↔ s.KeepsForward cls list ∨
      ∀ methodid, (s.userinfo.probe methodid).isSome = true → (s.search methodid).isSome = true := by
  obtain ⟨hagrees, -⟩ := coherent_iff.mp hs
  have hsame : ∀ {methodid imp}, s.userinfo.probe methodid = some imp →
      (s.addMethods cls list).search methodid = s.search methodid :=
    searchWith_of_probe hlisted
  constructor
  · intro h
    by_cases hfound : ∀ methodid, (s.userinfo.probe methodid).isSome = true →
        (s.search methodid).isSome = true
    · exact .inr hfound
    · -- a selector without a method shows what `forward:` was and is
      push Not at hfound
      obtain ⟨methodid, hprobe, hsearch⟩ := hfound
      obtain ⟨imp, hprobe⟩ := Option.isSome_iff_exists.mp hprobe
      have hnone : s.search methodid = none := by simpa using hsearch
      have hbefore := hagrees hprobe
      have hafter := h hprobe
      rw [searchImp_of_search_eq_none cls hnone] at hbefore
      rw [searchImp_of_search_eq_none cls ((hsame hprobe).trans hnone)] at hafter
      exact .inl (hafter.trans hbefore.symm)
  · rintro h methodid imp hprobe
    rw [← hagrees hprobe]
    cases hsearch : s.search methodid with
    | some method =>
      rw [searchImp_of_search_eq_some cls hsearch,
        searchImp_of_search_eq_some cls ((hsame hprobe).trans hsearch)]
    | none =>
      rw [searchImp_of_search_eq_none cls hsearch,
        searchImp_of_search_eq_none cls ((hsame hprobe).trans hsearch)]
      refine h.resolve_right fun hfound => ?_
      have := hfound methodid (by simp [hprobe])
      simp [hsearch] at this

/-- A method list keeps a coherent class coherent exactly if it is addable. -/
theorem Coherent.addMethods_iff (hs : s.Coherent cls) (list : List (Sel × Method Imp)) :
    (s.addMethods cls list).Coherent cls ↔ s.Addable cls list := by
  have hremembered := hs.remembered_iff list
  have hcache : (s.addMethods cls list).userinfo =
      if s.HasListed list then s.userinfo.fresh else s.userinfo := by
    exact invalidateForMethods_eq s.userinfo list
  rw [coherent_iff, searchImp_forward, hcache, Addable]
  by_cases hlisted : s.HasListed list
  · rw [if_pos hlisted, ProbeCache.userinfo_fresh]
    constructor
    · rintro ⟨-, hword⟩
      exact (hremembered.mp hword).imp id fun hnone => ⟨hnone, .inl hlisted⟩
    · intro h
      exact ⟨.fresh, hremembered.mpr (h.imp id And.left)⟩
  · have hagrees := hs.agrees_iff hlisted
    rw [if_neg hlisted]
    constructor
    · rintro ⟨hcached, hword⟩
      rcases hagrees.mp hcached with hkeeps | hfound
      · exact .inl hkeeps
      · exact (hremembered.mp hword).imp id fun hnone => ⟨hnone, .inr hfound⟩
    · intro h
      refine ⟨hagrees.mpr ?_, hremembered.mpr (h.imp id And.left)⟩
      exact h.imp id fun hnone => hnone.2.resolve_left hlisted

variable [DecidableEq SuperId]

/-- The lookup in the first cache leaves the second one alone. -/
theorem userinfo_lookup (methodid : Sel) (kept : Sel ⊕ SuperId → Bool) :
    (s.lookup methodid kept).2.search = s.search ∧
      (s.lookup methodid kept).2.userinfo = s.userinfo := by
  rw [lookup]
  split <;> exact ⟨rfl, rfl⟩

theorem userinfo_lookupSuper (cls : Class Sel SuperId Imp) (superid : SuperId)
    (kept : Sel ⊕ SuperId → Bool) :
    (s.lookupSuper cls superid kept).2.search = s.search ∧
      (s.lookupSuper cls superid kept).2.userinfo = s.userinfo := by
  rw [lookupSuper]
  split
  · exact ⟨rfl, rfl⟩
  · split <;> exact ⟨rfl, rfl⟩

/-- A step that adds a method list adds an addable one. -/
def AddsAddable (cls : Class Sel SuperId Imp) (s : ClassState Sel SuperId Imp) :
    ClassAct Sel SuperId Imp → Prop
  | .addMethods list => s.Addable cls list
  | _ => True

theorem Coherent.step {a : ClassAct Sel SuperId Imp} (hs : s.Coherent cls)
    (ha : AddsAddable cls s a) (h : s.step cls a = some s') : s'.Coherent cls := by
  cases a with
  | call methodid kept keptForward =>
    obtain ⟨hsearch, huserinfo⟩ := s.userinfo_lookup methodid kept
    rw [ClassState.step] at h
    split at h
    · rename_i s₁ heq
      rw [heq] at hsearch huserinfo
      obtain rfl := Option.some.inj h
      exact hs.congr hsearch huserinfo
    · rename_i s₁ heq
      rw [heq] at hsearch huserinfo
      obtain rfl := Option.some.inj h
      exact (hs.congr hsearch huserinfo).getForwardImp methodid keptForward
  | superCall superid kept =>
    obtain ⟨hsearch, huserinfo⟩ := s.userinfo_lookupSuper cls superid kept
    rw [ClassState.step] at h
    split at h
    · rename_i s₁ heq
      rw [heq] at hsearch huserinfo
      obtain rfl := Option.some.inj h
      exact hs.congr hsearch huserinfo
    · rename_i s₁ heq
      rw [heq] at hsearch huserinfo
      obtain rfl := Option.some.inj h
      exact (hs.congr hsearch huserinfo).getSuperForwardImp
  | addMethods list =>
    obtain rfl := Option.some.inj h
    exact (hs.addMethods_iff list).mpr ha
  | invalidateCaches =>
    obtain rfl := Option.some.inj h
    exact hs.invalidateCaches_none

/-- In a run from a new class that only adds addable method lists, the caches never give
another implementation than a search. -/
theorem coherent_of_addable (search : Sel → Option (Method Imp)) {es : List Empty}
    (hrun : RunWhile (silent (step cls)) (AddsAddable cls) (initial search) es s) :
    s.Coherent cls := by
  refine hrun.invariant (Coherent cls) ?_ (coherent_initial search)
  intro s a es s' ha hs hstep
  exact hs.step ha (silent_eq_some.mp hstep)

/-- A class whose first cache is replaced like the second. -/
def numbered : Class ℕ ℕ ℕ where
  forward := 0
  supersearchMethod _ := none
  invalidateCachesDefault list icache :=
    if (list.getD []).any fun m => (icache.probe (.inl m.1)).isSome then icache.fresh else icache

/-- A class that has `forward:` and one more method. -/
def numberedSearch : ℕ → Option (Method ℕ)
  | 0 => some ⟨⟨false, .other⟩, 10⟩
  | 1 => some ⟨⟨true, .other⟩, 11⟩
  | _ => none

/-- A list that overrides a cached method and `forward:`, before a message to `super`. -/
theorem coherent_of_addable_overriding : ∃ (es : List Empty) (s : ClassState ℕ ℕ ℕ),
    RunWhile (silent (step numbered)) (AddsAddable numbered) (initial numberedSearch) es s ∧
      s.searchImp numbered 1 = some 21 ∧ s.searchImp numbered 0 = some 20 ∧
      s.Coherent numbered := by
  have hrun : ∃ (es : List Empty) (s : ClassState ℕ ℕ ℕ),
      RunWhile (silent (step numbered)) (AddsAddable numbered) (initial numberedSearch) es s ∧
        s.searchImp numbered 1 = some 21 ∧ s.searchImp numbered 0 = some 20 :=
    ⟨_, _, (((RunWhile.refl _).tail
      (ClassAct.call 1 (fun _ => true) fun _ => true) trivial rfl).tail
      (ClassAct.addMethods [(1, ⟨⟨true, .other⟩, 21⟩), (0, ⟨⟨false, .other⟩, 20⟩)])
        (Or.inr ⟨rfl, Or.inl rfl⟩) rfl).tail
      (ClassAct.superCall 7 fun _ => true) trivial rfl, by decide, by decide⟩
  obtain ⟨es, s, hrun, h1, h0⟩ := hrun
  exact ⟨es, s, hrun, h1, h0, coherent_of_addable numberedSearch hrun⟩

/-- After a message to `super` that was forwarded, and a message without a method, a list
that overrides `forward:` changes neither of the implementations. -/
theorem stale_of_override : ∃ (es : List Empty) (s : ClassState ℕ ℕ ℕ),
    Run (silent (step numbered)) (initial numberedSearch) es s ∧
      (s.getSuperForwardImp numbered).1 = some 10 ∧ s.searchImp numbered 0 = some 20 ∧
      (s.getForwardImp numbered 2 fun _ => true).1 = some 10 ∧ s.searchImp numbered 2 = some 20 := by
  refine ⟨_, _, run_of_exec _ _
    [.superCall 7 fun _ => true, .call 2 (fun _ => true) fun _ => true,
      .addMethods [(0, ⟨⟨false, .other⟩, 20⟩)]] rfl, ?_⟩
  decide

end ClassState

end MulleObjC.Autolock
