import MulleObjC.Access.Graph
import MulleObjC.Invocation.Layout
import MulleObjC.Library.DepthFirst

/-!
# A transfer is a search

The objects whose access is transferred along with that of an object are its children.
The methods that relinquish and gain access search the graph of the children. They differ
in when they change the affinity of an object, before its children or after them.
-/

namespace MulleObjC.Access

open DepthFirst
open Invocation (TypeInfo Member)

universe u

variable {Obj Ivar : Type u} [DecidableEq Ivar]

namespace NSObject

variable (self : NSObject Obj Ivar)

/-- Access to an instance variable is transferred if the first property that it backs is
retained or copied, or if it backs none and is an object. -/
def TransfersIvar (ivar : Ivar) : Prop :=
  match self.properties.find? (·.ivar = some ivar) with
  | some property => property.isRetain ∨ property.isCopy
  | none => ivar ∈ self.ivars ∧ self.isObject ivar

/-- The instance variables in the order of the walks, and whether their access is
transferred. -/
def declarations : List (Ivar × Bool) :=
  self.properties.filterMap (fun property =>
    property.ivar.map (·, property.isRetain || property.isCopy)) ++
  self.ivars.map fun ivar => (ivar, self.isObject ivar)

/-- The instance variables of which the first declaration says that they are transferred. -/
def firsts : List (Ivar × Bool) → Finset Ivar → List Ivar
  | [], _ => []
  | (ivar, transfers) :: ds, met =>
    if ivar ∈ met then firsts ds met
    else if transfers then ivar :: firsts ds (insert ivar met)
    else firsts ds (insert ivar met)

/-- The objects whose access is transferred, in order. -/
def children : List Obj :=
  if self.strategy.transfersIvars then
    (firsts self.declarations ∅).flatMap fun ivar => (self.value ivar).toList
  else []

/-- An instance variable is first, if it was not met before and its first declaration
says so. -/
theorem mem_firsts (ds : List (Ivar × Bool)) (met : Finset Ivar) (ivar : Ivar) :
    ivar ∈ firsts ds met ↔ ivar ∉ met ∧ (ds.find? (·.1 = ivar)).map Prod.snd = some true := by
  induction ds generalizing met with
  | nil => simp [firsts]
  | cons d ds ih =>
    obtain ⟨v, transfers⟩ := d
    rw [firsts]
    by_cases hv : v = ivar
    · subst hv
      by_cases hmet : v ∈ met
      · simp [hmet, ih]
      · cases transfers <;> simp [hmet, ih]
    · by_cases hmet : v ∈ met
      · simp [hmet, hv, ih]
      · cases transfers <;> simp [hmet, hv, ih, Ne.symm hv]

/-- Every declaration that is not one of a property says whether the ivar is an object. -/
theorem find?_ivars (ivars : List Ivar) (isObject : Ivar → Bool) (ivar : Ivar) :
    ((ivars.map fun v => (v, isObject v)).find? (·.1 = ivar)).map Prod.snd =
      if ivar ∈ ivars then some (isObject ivar) else none := by
  induction ivars with
  | nil => rfl
  | cons v vs ih =>
    by_cases hv : v = ivar
    · simp [hv]
    · rw [List.map_cons, List.find?_cons_of_neg (by simpa using hv), ih]
      simp [Ne.symm hv]

/-- The first declaration of an instance variable is that of a property, if it backs one. -/
theorem find?_declarations (ivar : Ivar) :
    (self.declarations.find? (·.1 = ivar)).map Prod.snd =
      match self.properties.find? (·.ivar = some ivar) with
      | some property => some (property.isRetain || property.isCopy)
      | none => if ivar ∈ self.ivars then some (self.isObject ivar) else none := by
  have hbacks : ∀ property : Property Ivar,
      (property.ivar.map (·, property.isRetain || property.isCopy)).any (·.1 = ivar) =
        decide (property.ivar = some ivar) := by
    intro property
    cases property.ivar <;> simp
  rw [declarations, List.find?_append, List.find?_filterMap]
  simp only [hbacks]
  cases hfind : self.properties.find? (·.ivar = some ivar) with
  | some property =>
    have hivar : property.ivar = some ivar := by simpa using List.find?_some hfind
    simp [hivar]
  | none => simpa using find?_ivars self.ivars self.isObject ivar

/-- The instance variables whose access is transferred. -/
theorem mem_firsts_declarations (ivar : Ivar) :
    ivar ∈ firsts self.declarations ∅ ↔ self.TransfersIvar ivar := by
  rw [mem_firsts, find?_declarations, TransfersIvar]
  cases self.properties.find? (·.ivar = some ivar) with
  | some property => simp
  | none =>
    by_cases hmem : ivar ∈ self.ivars
    · simp [hmem]
    · simp [hmem]

end NSObject

/-- The objects in the slots of an invocation, in order. -/
def NSInvocation.children (self : NSInvocation Obj) : List Obj :=
  self.infos.flatMap fun info => info.objectOffsets.flatMap fun o => (self.slot o).toList

/-- The objects whose access is transferred along with that of an object. -/
def Kind.children : Kind Obj Ivar → List Obj
  | .cls => []
  | .object self => self.children
  | .invocation self => self.children

namespace Graph

variable (g : Graph Obj Ivar)

/-- The objects whose access is transferred along with that of an object. -/
def children (o : Obj) : List Obj := (g.kind o).children

/-- Access to one object is transferred along with that of another one: it is the value of an
instance variable or an object in a slot. -/
inductive Transfers : Obj → Obj → Prop
  | ivar {o p : Obj} {self : NSObject Obj Ivar} {ivar : Ivar} : g.kind o = .object self →
      self.strategy.transfersIvars → self.TransfersIvar ivar → self.value ivar = some p →
      Transfers o p
  | slot {o p : Obj} {self : NSInvocation Obj} {info : TypeInfo} {offset : ℕ} :
      g.kind o = .invocation self → info ∈ self.infos → offset ∈ info.objectOffsets →
      self.slot offset = some p → Transfers o p

/-- All walks over the slots of invocations return and find the owned members. -/
def WalkedRight : Prop :=
  ∀ o self, g.kind o = .invocation self → ∀ info ∈ self.infos, info.WalkedRight

theorem mem_children_iff {o p : Obj} : p ∈ g.children o ↔ g.Transfers o p := by
  constructor
  · intro hp
    rw [children] at hp
    cases hkind : g.kind o with
    | cls =>
      rw [hkind] at hp
      cases hp
    | object self =>
      rw [hkind, Kind.children, NSObject.children] at hp
      split at hp
      case isFalse => cases hp
      case isTrue hstrategy =>
        obtain ⟨ivar, hivar, hvalue⟩ := List.mem_flatMap.mp hp
        exact .ivar hkind hstrategy ((self.mem_firsts_declarations ivar).mp hivar)
          (Option.mem_toList.mp hvalue)
    | invocation self =>
      rw [hkind] at hp
      obtain ⟨info, hinfo, hp⟩ := List.mem_flatMap.mp hp
      obtain ⟨offset, hoffset, hslot⟩ := List.mem_flatMap.mp hp
      exact .slot hkind hinfo hoffset (Option.mem_toList.mp hslot)
  · intro htransfers
    cases htransfers with
    | ivar hkind hstrategy hivar hvalue =>
      rw [children, hkind, Kind.children, NSObject.children, if_pos hstrategy]
      exact List.mem_flatMap.mpr ⟨_, (NSObject.mem_firsts_declarations _ _).mpr hivar,
        Option.mem_toList.mpr hvalue⟩
    | slot hkind hinfo hoffset hslot =>
      rw [children, hkind]
      exact List.mem_flatMap.mpr ⟨_, hinfo, List.mem_flatMap.mpr ⟨_, hoffset,
        Option.mem_toList.mpr hslot⟩⟩

end Graph

variable [DecidableEq Obj] (g : Graph Obj Ivar)

/-- The objects of the uniquing set. -/
def Progress.Met (p : Progress Obj) (seen : Finset Obj) : Prop :=
  ∀ o, some o ∈ p.uniquing ↔ o ∈ seen

/-- A message does what a search does: where the search ends, the message returns. It has met
what the search has seen and changed the affinity of the instances that the search visits. -/
def Tracks (message : Progress Obj → Result Obj (Progress Obj))
    (search : Finset Obj → Option (Finset Obj × List Obj)) : Prop :=
  ∀ p seen seen' order, p.Met seen → search seen = some (seen', order) →
    ∃ p', message p = .ok p' ∧ p'.Met seen' ∧
      p'.performed = p.performed ++ order.filter g.isInstance

section Tracks

variable {g} {visit : Obj → Finset Obj → Option (Finset Obj × List Obj)}
  {f h : Progress Obj → Result Obj (Progress Obj)}
  {send : Obj → Progress Obj → Result Obj (Progress Obj)} {cs ds : List Obj}

omit [DecidableEq Ivar] in
theorem tracks_nil : Tracks g .ok (visitAll visit []) := by
  intro p seen seen' order hmet hsearch
  obtain ⟨rfl, rfl⟩ := Prod.mk.inj (Option.some.inj hsearch)
  exact ⟨p, rfl, hmet, by simp⟩

omit [DecidableEq Ivar] in
/-- Two messages, one after the other. -/
theorem Tracks.bind (hf : Tracks g f (visitAll visit cs)) (hh : Tracks g h (visitAll visit ds)) :
    Tracks g (fun p => f p >>= h) (visitAll visit (cs ++ ds)) := by
  intro p seen seen' order hmet hsearch
  rw [visitAll_append] at hsearch
  obtain ⟨⟨s, l⟩, hfirst, hrest⟩ := Option.bind_eq_some_iff.mp hsearch
  obtain ⟨⟨s', l'⟩, hsecond, heq⟩ := Option.map_eq_some_iff.mp hrest
  obtain ⟨rfl, rfl⟩ := Prod.mk.inj heq
  obtain ⟨p₁, hp₁, hmet₁, hperf₁⟩ := hf p seen s l hmet hfirst
  obtain ⟨p₂, hp₂, hmet₂, hperf₂⟩ := hh p₁ s s' l' hmet₁ hsecond
  refine ⟨p₂, ?_, hmet₂, ?_⟩
  · simp only [hp₁]
    exact hp₂
  · rw [hperf₂, hperf₁, List.filter_append, List.append_assoc]

omit [DecidableEq Ivar] in
/-- A message for each item of a list. -/
theorem tracks_foldlM {α : Type*} {each : Progress Obj → α → Result Obj (Progress Obj)}
    {value : α → List Obj} {as : List α}
    (heach : ∀ a ∈ as, Tracks g (each · a) (visitAll visit (value a))) :
    Tracks g (as.foldlM each) (visitAll visit (as.flatMap value)) := by
  induction as with
  | nil => exact tracks_nil
  | cons a as ih =>
    obtain ⟨ha, has⟩ := List.forall_mem_cons.mp heach
    exact ha.bind (ih has)

omit [DecidableEq Ivar] in
/-- The object of a message is called unless it was met before. -/
theorem tracks_send (hsend : ∀ o, Tracks g (send o) (visit o)) (o : Obj) :
    Tracks g (fun p => if some o ∈ p.uniquing then .ok p else send o (p.insert (some o)))
      (visitAll visit [o]) := by
  intro p seen seen' order hmet hsearch
  rw [visitAll] at hsearch
  split at hsearch
  case isTrue ho =>
    simp only [(hmet o).mpr ho, if_true]
    exact tracks_nil p seen seen' order hmet hsearch
  case isFalse ho =>
    obtain ⟨⟨s, l⟩, hvisit, hrest⟩ := Option.bind_eq_some_iff.mp hsearch
    obtain ⟨rfl, rfl⟩ : s = seen' ∧ l = order := by simpa [visitAll] using hrest
    have hinsert : (p.insert (some o)).Met (insert o seen) := by
      intro q
      simp [Progress.insert, hmet q]
    simp only [mt (hmet o).mp ho, if_false]
    exact hsend o (p.insert (some o)) _ s l hinsert hvisit

omit [DecidableEq Ivar] in
/-- `nil` gets into the set, but that has no consequences. -/
theorem tracks_callIvar (hsend : ∀ o, Tracks g (send o) (visit o)) (value : Option Obj) :
    Tracks g (callIvar send value) (visitAll visit value.toList) := by
  cases value with
  | some o => exact tracks_send hsend o
  | none =>
    intro p seen seen' order hmet hsearch
    obtain ⟨rfl, rfl⟩ := Prod.mk.inj (Option.some.inj hsearch)
    unfold callIvar
    split
    · exact ⟨p, rfl, hmet, by simp⟩
    · refine ⟨p.insert none, rfl, fun o => ?_, by simp [Progress.insert]⟩
      simp [Progress.insert, hmet o]

omit [DecidableEq Ivar] in
theorem tracks_sendIfAbsent (hsend : ∀ o, Tracks g (send o) (visit o)) (obj : Option Obj) :
    Tracks g (sendIfAbsent send obj) (visitAll visit obj.toList) := by
  cases obj with
  | some o => exact tracks_send hsend o
  | none => exact tracks_nil

/-- The walks go through the first declarations of the instance variables. -/
theorem tracks_callback (hsend : ∀ o, Tracks g (send o) (visit o)) (self : NSObject Obj Ivar)
    (ds : List (Ivar × Bool)) (met : Finset Ivar) :
    Tracks g (fun p => do
        let s ← ds.foldlM (fun s d => self.callback send s d.1 d.2) (met, p)
        return s.2)
      (visitAll visit ((NSObject.firsts ds met).flatMap fun ivar => (self.value ivar).toList)) := by
  induction ds generalizing met with
  | nil => exact tracks_nil
  | cons d ds ih =>
    obtain ⟨ivar, transfers⟩ := d
    intro p seen seen' order hp hsearch
    simp only [List.foldlM_cons]
    by_cases hmet : ivar ∈ met
    · have hcallback : self.callback send (met, p) ivar transfers = .ok (met, p) := if_pos hmet
      rw [NSObject.firsts, if_pos hmet] at hsearch
      rw [hcallback]
      exact ih met p seen seen' order hp hsearch
    · rw [NSObject.firsts, if_neg hmet] at hsearch
      cases transfers with
      | false =>
        have hcallback : self.callback send (met, p) ivar false = .ok (insert ivar met, p) :=
          if_neg hmet
        rw [hcallback]
        exact ih (insert ivar met) p seen seen' order hp hsearch
      | true =>
        have hcallback : self.callback send (met, p) ivar true =
            (callIvar send (self.value ivar) p).map (insert ivar met, ·) := if_neg hmet
        obtain ⟨p', hp', hafter⟩ := (tracks_callIvar hsend (self.value ivar)).bind
          (ih (insert ivar met)) p seen seen' order hp hsearch
        refine ⟨p', Eq.trans ?_ hp', hafter⟩
        rw [hcallback]
        dsimp only
        cases callIvar send (self.value ivar) p <;> rfl

/-- The walks over properties and instance variables search the children. -/
theorem tracks_gainOrRelinquishAccessToIvars (hsend : ∀ o, Tracks g (send o) (visit o))
    (self : NSObject Obj Ivar) (hstrategy : self.strategy.transfersIvars) :
    Tracks g (self.gainOrRelinquishAccessToIvars send) (visitAll visit self.children) := by
  have hproperties : ∀ s, self.properties.foldlM (self.propertyCallback send) s =
      (self.properties.filterMap fun property =>
        property.ivar.map (·, property.isRetain || property.isCopy)).foldlM
          (fun s d => self.callback send s d.1 d.2) s := by
    intro s
    rw [List.foldlM_filterMap]
    congr 1
    funext s property
    unfold NSObject.propertyCallback
    cases property.ivar <;> rfl
  have hwalks : self.gainOrRelinquishAccessToIvars send = fun p => do
      let s ← self.declarations.foldlM (fun s d => self.callback send s d.1 d.2) (∅, p)
      return s.2 := by
    funext p
    simp only [NSObject.gainOrRelinquishAccessToIvars, NSObject.declarations, hproperties,
      List.foldlM_append, List.foldlM_map, bind_assoc]
    rfl
  rw [NSObject.children, if_pos hstrategy, hwalks]
  exact tracks_callback hsend self self.declarations ∅

omit [DecidableEq Ivar] in
/-- A walk over the members of a slot that finds the owned ones. -/
theorem tracks_performMemberOperation (hsend : ∀ o, Tracks g (send o) (visit o))
    (self : NSInvocation Obj) {info : TypeInfo} (hright : info.WalkedRight)
    (hoffsets : info.objectOffsets =
      ((info.type.layout 0).filter (·.kind.resource = .object)).map fun m =>
        info.invocationOffset + m.offset) :
    Tracks g (self.performMemberOperation send info)
      (visitAll visit (info.objectOffsets.flatMap fun o => (self.slot o).toList)) := by
  have hreturns : self.performMemberOperation send info = fun p =>
      (info.slotMembers.filter (·.kind.resource = .object)).foldlM
        (fun p m => sendIfAbsent send (self.slot m.offset) p) p := by
    funext p
    rw [NSInvocation.performMemberOperation]
    simp only [TypeInfo.offset_of_walkedRight hright, if_true, bind_pure]
  rw [hreturns, ← TypeInfo.objects_of_walkedRight hright hoffsets, List.flatMap_map]
  exact tracks_foldlM fun m _ => tracks_sendIfAbsent hsend (self.slot m.offset)

omit [DecidableEq Ivar] in
/-- The slots of an invocation, one after the other. -/
theorem tracks_makeObjectArgumentsPerformSelector (hsend : ∀ o, Tracks g (send o) (visit o))
    (self : NSInvocation Obj) (hright : ∀ info ∈ self.infos, info.WalkedRight) :
    Tracks g (self.makeObjectArgumentsPerformSelector send) (visitAll visit self.children) := by
  refine tracks_foldlM fun info hinfo => ?_
  have hobject : Tracks g (sendIfAbsent send (self.slot info.invocationOffset))
      (visitAll visit ([info.invocationOffset].flatMap fun o => (self.slot o).toList)) := by
    simpa using tracks_sendIfAbsent hsend (self.slot info.invocationOffset)
  have hmembers := tracks_performMemberOperation hsend self (hright info hinfo)
  cases htype : info.type with
  | cls | assignId | retainId | copyId =>
    simp only [NSInvocation.performSlot, TypeInfo.objectOffsets, htype]
    exact hobject
  | scalar | charPtr =>
    simp only [NSInvocation.performSlot, TypeInfo.objectOffsets, htype]
    exact tracks_nil
  | array | struct | union =>
    simp only [NSInvocation.performSlot, htype]
    split
    · exact hmembers (by simp only [TypeInfo.objectOffsets, htype])
    · next hretainable =>
      have hnone : info.type.layout 0 = [] := by
        rw [← (hright info hinfo).members, TypeInfo.ownedMembers, htype]
        exact congrArg Invocation.Walk.members (if_neg hretainable)
      rw [htype] at hnone
      simp only [TypeInfo.objectOffsets, htype, hnone]
      exact tracks_nil

/-- The instance variables of an object, if its strategy transfers them. -/
theorem tracks_ivars (hsend : ∀ o, Tracks g (send o) (visit o)) (self : NSObject Obj Ivar) :
    Tracks g (fun p =>
        if self.strategy.transfersIvars then self.gainOrRelinquishAccessToIvars send p else .ok p)
      (visitAll visit self.children) := by
  by_cases hstrategy : self.strategy.transfersIvars
  · simp only [hstrategy, if_true]
    exact tracks_gainOrRelinquishAccessToIvars hsend self hstrategy
  · simp only [NSObject.children, hstrategy]
    exact tracks_nil

omit [DecidableEq Ivar] [DecidableEq Obj] in
/-- The affinity of an object is changed before its children are called. -/
theorem Tracks.before {search : Finset Obj → Option (Finset Obj × List Obj)} {o : Obj}
    (hf : Tracks g f search) (ho : g.isInstance o) :
    Tracks g (fun p => f (p.perform o))
      fun seen => (search seen).map fun r => (r.1, o :: r.2) := by
  intro p seen seen' order hmet hsearch
  obtain ⟨⟨s, l⟩, hchildren, heq⟩ := Option.map_eq_some_iff.mp hsearch
  obtain ⟨rfl, rfl⟩ := Prod.mk.inj heq
  obtain ⟨p', hp', hmet', hperf⟩ := hf (p.perform o) seen s l hmet hchildren
  refine ⟨p', hp', hmet', ?_⟩
  rw [hperf, List.filter_cons_of_pos ho, Progress.perform, List.append_assoc]
  rfl

omit [DecidableEq Ivar] [DecidableEq Obj] in
/-- The affinity of an object is changed after its children were called. -/
theorem Tracks.after {search : Finset Obj → Option (Finset Obj × List Obj)} {o : Obj}
    (hf : Tracks g f search) (ho : g.isInstance o) :
    Tracks g (fun p => do
        let p ← f p
        return p.perform o)
      fun seen => (search seen).map fun r => (r.1, r.2 ++ [o]) := by
  intro p seen seen' order hmet hsearch
  obtain ⟨⟨s, l⟩, hchildren, heq⟩ := Option.map_eq_some_iff.mp hsearch
  obtain ⟨rfl, rfl⟩ := Prod.mk.inj heq
  obtain ⟨p', hp', hmet', hperf⟩ := hf p seen s l hmet hchildren
  refine ⟨p'.perform o, ?_, hmet', ?_⟩
  · simp only [hp']
    rfl
  · rw [Progress.perform, hperf, List.filter_append, List.filter_cons_of_pos ho, List.filter_nil,
      List.append_assoc]

omit [DecidableEq Ivar] in
/-- A class object is visited, but its affinity is not changed. -/
theorem tracks_cls {o : Obj} (hkind : g.kind o = .cls) (post : Bool) :
    Tracks g .ok fun seen => (visitAll visit [] seen).map fun r =>
      (r.1, if post then r.2 ++ [o] else o :: r.2) := by
  intro p seen seen' order hmet hsearch
  obtain ⟨⟨s, l⟩, hchildren, heq⟩ := Option.map_eq_some_iff.mp hsearch
  obtain ⟨rfl, rfl⟩ := Prod.mk.inj heq
  obtain ⟨rfl, rfl⟩ := Prod.mk.inj (Option.some.inj hchildren)
  have ho : g.isInstance o = false := by simp [Graph.isInstance, hkind, Kind.isInstance]
  exact ⟨p, rfl, hmet, by cases post <;> simp [ho]⟩

/-- Access to an object is gained before that to its children. -/
theorem tracks_gainAccessWithUniquingSet (hright : g.WalkedRight) (fuel : ℕ) (o : Obj) :
    Tracks g (g.gainAccessWithUniquingSet fuel o) (DepthFirst.visit g.children false fuel o) := by
  induction fuel generalizing o with
  | zero =>
    intro p seen seen' order _ hsearch
    cases hsearch
  | succ fuel ih =>
    change Tracks g (fun p => g.gainAccessWithUniquingSet (fuel + 1) o p)
      fun seen => DepthFirst.visit g.children false (fuel + 1) o seen
    have hinstance : g.isInstance o = (g.kind o).isInstance := rfl
    simp only [Graph.gainAccessWithUniquingSet, DepthFirst.visit, Graph.children]
    cases hkind : g.kind o with
    | cls => exact tracks_cls hkind false
    | object self => exact (tracks_ivars ih self).before (by rw [hinstance, hkind]; rfl)
    | invocation self =>
      exact (tracks_makeObjectArgumentsPerformSelector ih self (hright o self hkind)).before
        (by rw [hinstance, hkind]; rfl)

/-- Access to an object is relinquished after that to its children. -/
theorem tracks_relinquishAccessWithUniquingSet (hright : g.WalkedRight) (fuel : ℕ) (o : Obj) :
    Tracks g (g.relinquishAccessWithUniquingSet fuel o)
      (DepthFirst.visit g.children true fuel o) := by
  induction fuel generalizing o with
  | zero =>
    intro p seen seen' order _ hsearch
    cases hsearch
  | succ fuel ih =>
    change Tracks g (fun p => g.relinquishAccessWithUniquingSet (fuel + 1) o p)
      fun seen => DepthFirst.visit g.children true (fuel + 1) o seen
    have hinstance : g.isInstance o = (g.kind o).isInstance := rfl
    simp only [Graph.relinquishAccessWithUniquingSet, DepthFirst.visit, Graph.children]
    cases hkind : g.kind o with
    | cls => exact tracks_cls hkind true
    | object self => exact (tracks_ivars ih self).after (by rw [hinstance, hkind]; rfl)
    | invocation self =>
      exact (tracks_makeObjectArgumentsPerformSelector ih self (hright o self hkind)).after
        (by rw [hinstance, hkind]; rfl)

end Tracks

end MulleObjC.Access
