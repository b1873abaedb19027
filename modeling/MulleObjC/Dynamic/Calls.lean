import MulleObjC.Dynamic.Accessors

/-!
# Messages to an object with dynamic properties

A message finds a method, or one is created for it, and the method runs on the values of the
object.
-/

namespace MulleObjC.Dynamic

open Holdings OwningMap

namespace Implementation

/-- How the accessor stores a value, if it can. -/
def storage : Implementation → Option Storage
  | .voidPointerSetter _ | .assignGetterWillReadRelationship => some .raw
  | .strdupSetter _ => some .string
  | .retainSetter _ | .copySetter _ | .genericValueSetter _ | .valueSetter _ | .numberSetter _
  | .retainGetterWillReadRelationship | .adder _ true | .remover _ true => some .object
  | .code | .voidPointerGetter | .valueGetter | .adder _ false | .remover _ false => none

/-- The value that the accessor stores. -/
def value (m : Message) : Implementation → ℕ
  | .voidPointerSetter _ | .retainSetter _ => m.param
  | .strdupSetter _ | .copySetter _ => if m.param = 0 then 0 else m.answer
  | _ => m.answer

/-- The accessor makes a duplicate or a wrapper of what it gets. -/
def writes (m : Message) : Implementation → Bool
  | .strdupSetter _ => m.param ≠ 0
  | .genericValueSetter _ | .valueSetter _ | .numberSetter _ => true
  | _ => false

/-- The accessor is a getter, for which the selector is the key. -/
def isGetter : Implementation → Bool
  | .voidPointerGetter | .assignGetterWillReadRelationship | .retainGetterWillReadRelationship
  | .valueGetter => true
  | _ => false

end Implementation

/-- How the setter of a property stores a value. -/
def GenericType.storage : GenericType → Storage
  | .voidPointer | .assign => .raw
  | .strdup => .string
  | .retain | .copy | .value | .number => .object

/-- An object, and what the universe knows. -/
structure State (Cls Sel : Type*) where
  u : Universe Cls Sel
  self : Instance Cls Sel

/-- What can happen. -/
inductive Act (Cls Sel : Type*)
  /-- The object gets a message. -/
  | call (sel : Sel) (m : Message)
  /-- Another object gets a message, for which methods may be created. -/
  | other (infra : Cls) (sel : Sel)

variable {Cls Sel : Type*} [DecidableEq Cls] [DecidableEq Sel]

/-- The key of an accessor. -/
def accessKey (runtime : Runtime Cls Sel) (u : Universe Cls Sel) (infra : Cls)
    (imp : Implementation) (methodid : Sel) : Except Failure Sel :=
  if imp.isGetter then .ok methodid else getKeyForSelector runtime u infra methodid

namespace State

variable (runtime : Runtime Cls Sel) (s : State Cls Sel)

/-- One message, with what it returns if somebody handles it. An exception or an abort ends the
run. -/
def act : Act Cls Sel → Option (Report Sel × Option Returned × State Cls Sel)
  | .call sel m =>
    match s.u.send runtime s.self.cls sel with
    | .method imp u =>
      match s.self.perform m runtime u imp sel with
      | .ok (es, returned, self) => some (es, some returned, ⟨u, self⟩)
      | .error _ => none
    | .fail u => some ([], none, { s with u := u })
    | .failure _ => none
  | .other infra sel =>
    match s.u.send runtime infra sel with
    | .method _ u | .fail u => some ([], none, { s with u := u })
    | .failure _ => none

/-- A machine that reports what is acquired and released. -/
def step (a : Act Cls Sel) : Option (Report Sel × State Cls Sel) :=
  (s.act runtime a).map fun r => (r.1, r.2.2)

end State

section Setter

variable (runtime : Runtime Cls Sel) (property : Property Sel)

omit [DecidableEq Cls] [DecidableEq Sel]

theorem storage_setterImplementation :
    (property.setterImplementation runtime).storage = some (property.ivarType runtime).storage := by
  unfold Property.setterImplementation
  cases property.ivarType runtime with
  | number | value => dsimp only; split_ifs <;> rfl
  | _ => rfl

theorem isGetter_setterImplementation :
    (property.setterImplementation runtime).isGetter = false := by
  unfold Property.setterImplementation
  cases property.ivarType runtime with
  | number | value => dsimp only; split_ifs <;> rfl
  | _ => rfl

end Setter

section Act

variable {runtime : Runtime Cls Sel} {s s' : State Cls Sel} {a : Act Cls Sel} {es : Report Sel}
  {returned : Option Returned}

/-- What comes of a message. -/
inductive Acts (runtime : Runtime Cls Sel) (s : State Cls Sel) :
    Act Cls Sel → Report Sel → Option Returned → State Cls Sel → Prop
  | handled {sel : Sel} {m : Message} {imp : Implementation} {es : Report Sel}
    {returned : Returned} {s' : State Cls Sel} :
      s.u.send runtime s.self.cls sel = .method imp s'.u →
      s.self.perform m runtime s'.u imp sel = .ok (es, returned, s'.self) →
      Acts runtime s (.call sel m) es (some returned) s'
  | unhandled {sel : Sel} {m : Message} {u : Universe Cls Sel} :
      s.u.send runtime s.self.cls sel = .fail u →
      Acts runtime s (.call sel m) [] none { s with u := u }
  | other {infra : Cls} {sel : Sel} {u : Universe Cls Sel} :
      ((∃ imp, s.u.send runtime infra sel = .method imp u) ∨
        s.u.send runtime infra sel = .fail u) →
      Acts runtime s (.other infra sel) [] none { s with u := u }

theorem acts_of_act (h : s.act runtime a = some (es, returned, s')) :
    Acts runtime s a es returned s' := by
  cases a with
  | call sel m =>
    simp only [State.act] at h
    split at h
    next imp u hsend =>
      split at h
      next es self value hperform =>
        cases h
        exact .handled hsend hperform
      · cases h
    next u hsend =>
      cases h
      exact .unhandled hsend
    · cases h
  | other infra sel =>
    simp only [State.act] at h
    split at h
    next imp u hsend =>
      cases h
      exact .other (.inl ⟨imp, hsend⟩)
    next u hsend =>
      cases h
      exact .other (.inr hsend)
    · cases h

theorem acts_of_step (h : s.step runtime a = some (es, s')) :
    ∃ returned, Acts runtime s a es returned s' := by
  obtain ⟨⟨es, returned, s'⟩, hact, hr⟩ := Option.map_eq_some_iff.mp h
  cases hr
  exact ⟨returned, acts_of_act hact⟩

end Act

section Accessors

variable {runtime : Runtime Cls Sel} {u : Universe Cls Sel} {self self' : Instance Cls Sel}
  {m : Message} {key : Sel} {es : Report Sel} {r : Sel × Resource}

/-- A value takes the place of another one, and what is acquired and released is what they own. -/
inductive Stores (self self' : Instance Cls Sel) (storage : Storage) (key : Sel) (value : ℕ)
    (es : Report Sel) : Prop
  | kept : self.get key = value → es = [] → self'.ivars = self.ivars →
      Stores self self' storage key value es
  | replaced : self'.ivars = self.ivars.insert key value →
      (∀ r, acquisitions es r = if storage.resource key value = some r then 1 else 0) →
      (∀ r, releases es r = if storage.resource key (self.get key) = some r then 1 else 0) →
      Stores self self' storage key value es

omit [DecidableEq Cls] in
theorem stores_replace (self other : Instance Cls Sel) (hivars : other.ivars = self.ivars)
    (key : Sel) (storage : Storage) (value : ℕ) :
    Stores self (other.replace key storage value).2 storage key value
      (other.replace key storage value).1 := by
  have hget : other.get key = self.get key := by rw [Instance.get, hivars, Instance.get]
  refine .replaced ?_ (fun r => ?_) fun r => ?_
  · exact congrArg (fun ivars => AList.insert key value ivars) hivars
  · simp [Instance.replace]
  · simp [Instance.replace, hget]

omit [DecidableEq Cls] in
theorem stores_assignGetter (self : Instance Cls Sel) (key : Sel) (m : Message) :
    (self.assignGetterWillReadRelationship key m).2.2.cls = self.cls ∧
      (self.assignGetterWillReadRelationship key m).2.2.contents = self.contents ∧
      Stores self (self.assignGetterWillReadRelationship key m).2.2 .raw key m.answer
        (self.assignGetterWillReadRelationship key m).1 := by
  unfold Instance.assignGetterWillReadRelationship
  split
  next hsame => exact ⟨rfl, rfl, .kept hsame rfl rfl⟩
  · exact ⟨rfl, rfl, .replaced rfl (fun _ => rfl) fun _ => rfl⟩

omit [DecidableEq Cls] in
theorem stores_retainGetter (self : Instance Cls Sel) (key : Sel) (m : Message) :
    (self.retainGetterWillReadRelationship key m).2.2.cls = self.cls ∧
      (self.retainGetterWillReadRelationship key m).2.2.contents = self.contents ∧
      Stores self (self.retainGetterWillReadRelationship key m).2.2 .object key m.answer
        (self.retainGetterWillReadRelationship key m).1 := by
  unfold Instance.retainGetterWillReadRelationship
  split
  next hsame => exact ⟨rfl, rfl, .kept hsame rfl rfl⟩
  · refine ⟨rfl, rfl, .replaced rfl (fun r => ?_) fun r => ?_⟩
    · simp
    · simp

omit [DecidableEq Cls] in
theorem stores_strdupSetter (self : Instance Cls Sel) (key : Sel) (m : Message) :
    (self.strdupSetter key m).2.cls = self.cls ∧
      (self.strdupSetter key m).2.contents = (if m.param ≠ 0 then
        Function.update self.contents m.answer m.bytes else self.contents) ∧
      Stores self (self.strdupSetter key m).2 .string key (if m.param = 0 then 0 else m.answer)
        (self.strdupSetter key m).1 := by
  unfold Instance.strdupSetter
  split
  next hnull =>
    exact ⟨rfl, by rw [if_neg (not_not.mpr hnull)]; rfl, stores_replace self self rfl ..⟩
  · exact ⟨rfl, rfl, stores_replace self (self.write m.answer m.bytes) rfl key .string _⟩

omit [DecidableEq Cls] in
theorem of_withKey {methodid : Sel} {returned : Returned}
    {f : Sel → Except Failure (Report Sel × Instance Cls Sel)}
    (h : self.withKey runtime u methodid f = .ok (es, returned, self')) :
    returned = .nothing ∧ ∃ key, getKeyForSelector runtime u self.cls methodid = .ok key ∧
      f key = .ok (es, self') := by
  unfold Instance.withKey at h
  split at h
  · cases h
  next key hkey =>
    cases hf : f key with
    | error failure => simp [hf, Except.map] at h
    | ok result =>
      simp only [hf, Except.map, Except.ok.injEq, Prod.mk.injEq] at h
      obtain ⟨rfl, rfl, rfl⟩ := h
      exact ⟨rfl, key, hkey, hf⟩

omit [DecidableEq Cls] in
/-- What an accessor does is that it stores a value, or nothing. New contents are those of a new
duplicate or wrapper. -/
theorem perform_stores {imp : Implementation} {methodid : Sel} {returned : Returned}
    (h : self.perform m runtime u imp methodid = .ok (es, returned, self')) :
    self'.cls = self.cls ∧
      self'.contents = (if imp.writes m = true then
        Function.update self.contents m.answer m.bytes else self.contents) ∧
      (imp.storage = none ∧ es = [] ∧ self' = self ∨
        ∃ storage key, imp.storage = some storage ∧
          accessKey runtime u self.cls imp methodid = .ok key ∧
          Stores self self' storage key (imp.value m) es) := by
  cases imp with
  | code | voidPointerGetter | valueGetter =>
    cases h
    exact ⟨rfl, rfl, .inl ⟨rfl, rfl, rfl⟩⟩
  | assignGetterWillReadRelationship =>
    have hresult : self.assignGetterWillReadRelationship methodid m = (es, returned, self') :=
      Except.ok.inj h
    obtain ⟨hcls, hcontents, hstores⟩ := stores_assignGetter self methodid m
    rw [hresult] at hcls hcontents hstores
    exact ⟨hcls, hcontents, .inr ⟨.raw, methodid, rfl, rfl, hstores⟩⟩
  | retainGetterWillReadRelationship =>
    have hresult : self.retainGetterWillReadRelationship methodid m = (es, returned, self') :=
      Except.ok.inj h
    obtain ⟨hcls, hcontents, hstores⟩ := stores_retainGetter self methodid m
    rw [hresult] at hcls hcontents hstores
    exact ⟨hcls, hcontents, .inr ⟨.object, methodid, rfl, rfl, hstores⟩⟩
  | voidPointerSetter willChange =>
    obtain ⟨-, key, hkey, hf⟩ := of_withKey h
    cases hf
    exact ⟨rfl, rfl, .inr ⟨.raw, key, rfl, hkey, stores_replace self self rfl key .raw m.param⟩⟩
  | retainSetter willChange =>
    obtain ⟨-, key, hkey, hf⟩ := of_withKey h
    cases hf
    have hstores := stores_replace self self rfl key .object m.param
    exact ⟨rfl, rfl, .inr ⟨.object, key, rfl, hkey, hstores⟩⟩
  | copySetter willChange =>
    obtain ⟨-, key, hkey, hf⟩ := of_withKey h
    cases hf
    exact ⟨rfl, rfl, .inr ⟨.object, key, rfl, hkey, stores_replace self self rfl key .object _⟩⟩
  | valueSetter objcType | numberSetter objcType =>
    obtain ⟨-, key, hkey, hf⟩ := of_withKey h
    cases hf
    have hstores := stores_replace self (self.write m.answer m.bytes) rfl key .object m.answer
    exact ⟨rfl, rfl, .inr ⟨.object, key, rfl, hkey, hstores⟩⟩
  | strdupSetter willChange =>
    obtain ⟨-, key, hkey, hf⟩ := of_withKey h
    have hresult : self.strdupSetter key m = (es, self') := Except.ok.inj hf
    obtain ⟨hcls, hcontents, hstores⟩ := stores_strdupSetter self key m
    rw [hresult] at hcls hcontents hstores
    refine ⟨hcls, ?_, .inr ⟨.string, key, rfl, hkey, hstores⟩⟩
    simpa [Implementation.writes] using hcontents
  | genericValueSetter willChange =>
    obtain ⟨-, key, hkey, hf⟩ := of_withKey h
    unfold Instance.genericValueSetter at hf
    split at hf
    · cases hf
      have hstores := stores_replace self (self.write m.answer m.bytes) rfl key .object m.answer
      exact ⟨rfl, rfl, .inr ⟨.object, key, rfl, hkey, hstores⟩⟩
    · cases hf
  | adder willChange willReadRelationship | remover willChange willReadRelationship =>
    obtain ⟨-, key, hkey, hf⟩ := of_withKey h
    cases willReadRelationship with
    | false =>
      cases hf
      exact ⟨rfl, rfl, .inl ⟨rfl, rfl, rfl⟩⟩
    | true =>
      cases hf
      obtain ⟨hcls, hcontents, hstores⟩ := stores_retainGetter self key m
      exact ⟨hcls, hcontents, .inr ⟨.object, key, rfl, hkey, hstores⟩⟩

omit [DecidableEq Cls] in
theorem Stores.get_eq {storage : Storage} {value : ℕ}
    (h : Stores self self' storage key value es) :
    self'.get = Function.update self.get key value := by
  funext other
  cases h with
  | kept hsame _ hivars =>
    rw [← hsame, Function.update_eq_self, Instance.get, hivars, Instance.get]
  | replaced hivars =>
    rw [Instance.get, hivars]
    by_cases hother : other = key
    · rw [hother, AList.lookup_insert, Function.update_self]
      rfl
    · rw [AList.lookup_insert_ne hother, Function.update_of_ne hother, Instance.get]

omit [DecidableEq Cls] in
/-- The value of the key changes, and no other. -/
theorem perform_get {imp : Implementation} {methodid : Sel} {returned : Returned}
    (h : self.perform m runtime u imp methodid = .ok (es, returned, self')) :
    imp.storage = none ∧ self'.get = self.get ∨
      imp.storage.isSome = true ∧ ∃ key, accessKey runtime u self.cls imp methodid = .ok key ∧
        self'.get = Function.update self.get key (imp.value m) := by
  obtain ⟨-, -, ⟨hnone, -, hself⟩ | ⟨storage, key, hstorage, hkey, hstores⟩⟩ := perform_stores h
  · exact .inl ⟨hnone, by rw [hself]⟩
  · exact .inr ⟨by rw [hstorage]; rfl, key, hkey, hstores.get_eq⟩

end Accessors

end MulleObjC.Dynamic
