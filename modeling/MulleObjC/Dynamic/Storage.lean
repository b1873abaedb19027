import MulleObjC.Dynamic.Calls
import MulleObjC.Dynamic.Layout
import MulleObjC.Library.Machine

/-!
# Getters return what setters stored

For a client an object is a record with a field for each property. Its values are in a map by
selectors, behind methods that are created on demand and a lookup that all classes share, but
it behaves like such a record.
-/

namespace MulleObjC.Dynamic

open Machine

variable {Cls Sel : Type*} [DecidableEq Cls] [DecidableEq Sel]

/-- What a field holds: a pointer or a scalar, or the contents of a string, a struct or a number.
-/
inductive Content
  | pointer (value : ℕ)
  | bytes (bytes : List UInt8)
  deriving DecidableEq, Repr

namespace Property

variable (runtime : Runtime Cls Sel) (p : Property Sel)

/-- The value goes through a block of the caller. -/
def isWrapped : Bool :=
  match p.ivarType runtime with
  | .value | .number => true
  | _ => false

/-- The value is kept as a duplicate or in a wrapper. -/
def isDuplicated : Bool := p.isWrapped runtime || p.ivarType runtime = .strdup

/-- What a setter stores. -/
def stored (m : Message) : Content :=
  match p.ivarType runtime with
  | .voidPointer | .assign | .retain => .pointer m.param
  | .copy => .pointer (if m.param = 0 then 0 else m.answer)
  | .strdup => if m.param = 0 then .pointer 0 else .bytes m.bytes
  | .value | .number => .bytes m.bytes

/-- The accessor of a relationship asks `willReadRelationship:` for the object. -/
def reads (sel : Sel) : Bool :=
  p.isRelationship && p.isContainerType runtime &&
    (p.getter = sel || p.adder = some sel || p.remover = some sel)

/-- A field changes if its setter is called, or if `willReadRelationship:` answers with another
object. -/
def update (c : Content) : Act Cls Sel → Content
  | .call sel m =>
    if p.setter = some sel then p.stored runtime m
    else if p.reads runtime sel then .pointer m.answer
    else c
  | .other _ _ => c

/-- The field after some messages. At first it is `nil`, or zero. -/
def content (as : List (Act Cls Sel)) : Content := as.foldl (p.update runtime) (.pointer 0)

/-- A getter returns what the field holds. -/
def Shows (c : Content) (returned : Returned) (contents : ℕ → List UInt8) : Prop :=
  match c with
  | .pointer value =>
    if p.isWrapped runtime then ∃ size, returned = .block (List.replicate size 0)
    else returned = .pointer value
  | .bytes bytes =>
    if p.isWrapped runtime then returned = .block bytes
    else ∃ value, value ≠ 0 ∧ returned = .pointer value ∧ contents value = bytes

/-- The object keeps what the field holds. -/
def Keeps (self : Instance Cls Sel) : Content → Prop
  | .pointer value => self.get p.getter = value ∧ (p.isWrapped runtime = true → value = 0)
  | .bytes bytes => p.isDuplicated runtime = true ∧ self.get p.getter ≠ 0 ∧
    self.contents (self.get p.getter) = bytes

end Property

namespace State

variable (runtime : Runtime Cls Sel) (properties : Set (Property Sel)) (s : State Cls Sel)

/-- A machine that reports the messages that are handled. -/
def handle (a : Act Cls Sel) : Option (List (Act Cls Sel) × State Cls Sel) :=
  (s.act runtime a).map fun r => (if r.2.1.isSome then [a] else [], r.2.2)

/-- A new duplicate or wrapper does not overwrite one that is kept. -/
def Allocates (m : Message) : Prop :=
  m.answer ≠ 0 ∧ ∀ p ∈ properties, p.isDuplicated runtime = true →
    s.self.get p.getter = m.answer → s.self.contents m.answer = m.bytes

/-- Properties are made up right, and memory is allocated right. -/
def Undisturbed : Act Cls Sel → Prop
  | .call sel m => s.u.MakesUpRight runtime s.self.cls properties s.self.cls sel ∧
    ∀ imp u, s.u.send runtime s.self.cls sel = .method imp u → imp.writes m = true →
      s.Allocates runtime properties m
  | .other infra sel => s.u.MakesUpRight runtime s.self.cls properties infra sel

end State

section Field

variable {runtime : Runtime Cls Sel} {p : Property Sel} {self self' : Instance Cls Sel} {sel : Sel}
  {accessorType : AccessorType} {m : Message} {c : Content} {value : ℕ}

omit [DecidableEq Cls] in
/-- A field is unaffected by the accessors of others. -/
theorem update_of_notMem (h : ∀ accessorType, (accessorType, sel) ∉ p.accessors) :
    p.update runtime c (.call sel m) = c := by
  have hgetter : p.getter ≠ sel := fun he => h .getter (mem_accessors.mpr (.inl ⟨rfl, he.symm⟩))
  have hsetter : p.setter ≠ some sel :=
    fun he => h .setter (mem_accessors.mpr (.inr (.inl ⟨rfl, he⟩)))
  have hadder : p.adder ≠ some sel :=
    fun he => h .adder (mem_accessors.mpr (.inr (.inr (.inl ⟨rfl, he⟩))))
  have hremover : p.remover ≠ some sel :=
    fun he => h .remover (mem_accessors.mpr (.inr (.inr (.inr ⟨rfl, he⟩))))
  simp [Property.update, Property.reads, hgetter, hsetter, hadder, hremover]

omit [DecidableEq Cls] [DecidableEq Sel] in
theorem isWrapped_of_isContainerType (h : p.isContainerType runtime = true) :
    p.isWrapped runtime = false := by
  unfold Property.isContainerType at h
  unfold Property.isWrapped
  cases hivarType : p.ivarType runtime <;> simp_all

omit [DecidableEq Cls] in
/-- The accessors other than setters store what `willReadRelationship:` answers, if they ask for
it. -/
theorem implementation_effect (hmem : (accessorType, sel) ∈ p.accessors)
    (hsetter : accessorType ≠ .setter)
    (hcontainer : accessorType = .adder ∨ accessorType = .remover →
      p.isContainerType runtime = true) :
    (p.implementation runtime accessorType).storage.isSome = p.reads runtime sel ∧
      (p.implementation runtime accessorType).writes m = false ∧
      (p.reads runtime sel = true →
        (p.implementation runtime accessorType).value m = m.answer) := by
  cases accessorType with
  | getter =>
    obtain rfl : sel = p.getter := by simpa [mem_accessors] using hmem
    simp only [Property.implementation, Property.getterImplementation, Property.reads,
      Property.isContainerType]
    cases p.ivarType runtime <;> cases p.isRelationship <;>
      simp [Implementation.storage, Implementation.writes, Implementation.value]
  | setter => exact absurd rfl hsetter
  | adder =>
    have hadder : p.adder = some sel := by simpa [mem_accessors] using hmem
    simp only [Property.implementation, Property.reads, hcontainer (.inl rfl), hadder]
    cases p.isRelationship <;>
      simp [Implementation.storage, Implementation.writes, Implementation.value]
  | remover =>
    have hremover : p.remover = some sel := by simpa [mem_accessors] using hmem
    simp only [Property.implementation, Property.reads, hcontainer (.inr rfl), hremover]
    cases p.isRelationship <;>
      simp [Implementation.storage, Implementation.writes, Implementation.value]
  | invalid => exact absurd rfl (ne_invalid_of_mem_accessors hmem)

omit [DecidableEq Cls] in
theorem keeps_setter
    (hget : self'.get =
      Function.update self.get p.getter ((p.setterImplementation runtime).value m))
    (hcontents : self'.contents = if (p.setterImplementation runtime).writes m = true then
      Function.update self.contents m.answer m.bytes else self.contents)
    (hanswer : (p.setterImplementation runtime).writes m = true → m.answer ≠ 0) :
    p.Keeps runtime self' (p.stored runtime m) := by
  have hkey := congrFun hget p.getter
  rw [Function.update_self] at hkey
  -- A new duplicate or wrapper is what the key leads to.
  have hbytes : ∀ {bytes}, (p.setterImplementation runtime).writes m = true →
      (p.setterImplementation runtime).value m = m.answer → m.bytes = bytes →
      p.isDuplicated runtime = true → p.Keeps runtime self' (.bytes bytes) := by
    rintro bytes hwrites hvalue rfl hduplicated
    rw [hvalue] at hkey
    rw [if_pos hwrites] at hcontents
    refine ⟨hduplicated, by rw [hkey]; exact hanswer hwrites, ?_⟩
    rw [hkey, hcontents, Function.update_self]
  cases hivarType : p.ivarType runtime with
  | voidPointer | assign | retain | copy =>
    simp only [Property.setterImplementation, hivarType, Implementation.value] at hkey
    simp only [Property.stored, hivarType]
    exact ⟨hkey, fun hwrapped => by simp [Property.isWrapped, hivarType] at hwrapped⟩
  | strdup =>
    simp only [Property.stored, hivarType]
    by_cases hnull : m.param = 0
    · simp only [Property.setterImplementation, hivarType, Implementation.value, if_pos hnull]
        at hkey
      rw [if_pos hnull]
      exact ⟨hkey, fun _ => rfl⟩
    · rw [if_neg hnull]
      apply hbytes
      · simp [Property.setterImplementation, hivarType, Implementation.writes, hnull]
      · simp [Property.setterImplementation, hivarType, Implementation.value, hnull]
      · rfl
      · simp [Property.isDuplicated, hivarType]
  | value | number =>
    simp only [Property.stored, hivarType]
    apply hbytes
    · simp only [Property.setterImplementation, hivarType]
      split_ifs <;> rfl
    · simp only [Property.setterImplementation, hivarType]
      split_ifs <;> rfl
    · rfl
    · simp [Property.isDuplicated, Property.isWrapped, hivarType]

omit [DecidableEq Cls] in
theorem keeps_of_eq (hget : self'.get p.getter = self.get p.getter)
    (hcontents : p.isDuplicated runtime = true →
      self'.contents (self.get p.getter) = self.contents (self.get p.getter))
    (h : p.Keeps runtime self c) : p.Keeps runtime self' c := by
  cases c with
  | pointer value =>
    obtain ⟨hvalue, hwrapped⟩ := h
    exact ⟨hget.trans hvalue, hwrapped⟩
  | bytes bytes =>
    obtain ⟨hduplicated, hne, hbytes⟩ := h
    refine ⟨hduplicated, by rwa [hget], ?_⟩
    rw [hget, hcontents hduplicated, hbytes]

omit [DecidableEq Sel] [DecidableEq Cls] in
theorem isGetter_implementation (hvalid : accessorType ≠ .invalid) :
    (p.implementation runtime accessorType).isGetter = true ↔ accessorType = .getter := by
  cases accessorType with
  | getter =>
    simp only [Property.implementation, Property.getterImplementation]
    cases p.ivarType runtime <;> cases p.isRelationship <;> simp [Implementation.isGetter]
  | setter => simp [Property.implementation, isGetter_setterImplementation]
  | adder | remover => simp [Property.implementation, Implementation.isGetter]
  | invalid => exact absurd rfl hvalid

end Field

section Call

variable {runtime : Runtime Cls Sel} {cls : Cls} {properties : Set (Property Sel)}
  {u : Universe Cls Sel} {p : Property Sel} {self self' : Instance Cls Sel} {sel key : Sel}
  {accessorType : AccessorType} {m : Message} {imp : Implementation} {es : Report Sel}
  {returned : Returned}

omit [DecidableEq Cls] in
/-- The key of an accessor is the getter of its property. -/
theorem accessKey_eq (hlayout : Layout runtime cls properties) (hp : p ∈ properties)
    (hmem : (accessorType, sel) ∈ p.accessors)
    (hlookup : accessorType ≠ .getter → u.getterLookup sel = some p.getter)
    (h : accessKey runtime u cls (p.implementation runtime accessorType) sel = .ok key) :
    key = p.getter := by
  unfold accessKey at h
  have hisGetter : (p.implementation runtime accessorType).isGetter = true ↔ _ :=
    isGetter_implementation (ne_invalid_of_mem_accessors hmem)
  split at h
  next hgetter =>
    obtain rfl := hisGetter.mp hgetter
    cases h
    simpa [mem_accessors] using hmem
  next hgetter =>
    have hother := hlookup fun he => hgetter (hisGetter.mpr he)
    unfold getKeyForSelector at h
    rw [hother] at h
    dsimp only at h
    split at h
    · cases h
      rfl
    · split at h
      next q hq =>
        cases h
        obtain ⟨qType, hqmem⟩ := mem_accessors_of_isFound (List.find?_some hq)
        obtain ⟨rfl, -⟩ := hlayout.accessor_inj p hp q
          (hlayout.declared cls (runtime.mem_hierarchy cls) sel q hq) _ _ sel hmem hqmem
        rfl
      · cases h

omit [DecidableEq Cls] in
/-- A call of an accessor keeps the field of its property. -/
theorem keeps_own (hlayout : Layout runtime cls properties) (hp : p ∈ properties)
    (hcls : self.cls = cls) (hmem : (accessorType, sel) ∈ p.accessors)
    (hlookup : accessorType ≠ .getter → u.getterLookup sel = some p.getter)
    (hallocates : (p.implementation runtime accessorType).writes m = true → m.answer ≠ 0)
    (h : self.perform m runtime u (p.implementation runtime accessorType) sel =
      .ok (es, returned, self')) {c : Content} (hkeeps : p.Keeps runtime self c) :
    p.Keeps runtime self' (p.update runtime c (.call sel m)) := by
  have hcontents := (perform_stores h).2.1
  have hkey : ∀ {key}, accessKey runtime u self.cls (p.implementation runtime accessorType) sel =
      .ok key → key = p.getter := by
    rw [hcls]
    exact accessKey_eq hlayout hp hmem hlookup
  by_cases hsetter : accessorType = .setter
  · subst hsetter
    have hsel : p.setter = some sel := by simpa [mem_accessors] using hmem
    rw [Property.update, if_pos hsel]
    obtain ⟨hnone, -⟩ | ⟨-, key, haccess, hget⟩ := perform_get h
    · cases (storage_setterImplementation runtime p).symm.trans hnone
    · rw [hkey haccess] at hget
      exact keeps_setter hget hcontents hallocates
  · have hother : p.setter ≠ some sel := by
      intro hsel
      have hinj := hlayout.accessor_inj p hp p hp .setter accessorType sel
        (mem_accessors.mpr (.inr (.inl ⟨rfl, hsel⟩))) hmem
      exact hsetter hinj.2.symm
    obtain ⟨hstorage, hwrites, hvalue⟩ := implementation_effect (m := m) hmem hsetter
      (hlayout.containers p hp accessorType sel hmem)
    rw [hwrites, if_neg Bool.false_ne_true] at hcontents
    rw [Property.update, if_neg hother]
    obtain ⟨hnone, hget⟩ | ⟨hsome, key, haccess, hget⟩ := perform_get h
    · have hreads : p.reads runtime sel = false := by rw [← hstorage, hnone]; rfl
      rw [if_neg (by simp [hreads])]
      exact keeps_of_eq (by rw [hget]) (fun _ => by rw [hcontents]) hkeeps
    · have hreads : p.reads runtime sel = true := hstorage.symm.trans hsome
      rw [if_pos hreads]
      refine ⟨?_, fun hwrapped => ?_⟩
      · rw [hget, hkey haccess, Function.update_self, hvalue hreads]
      · have hcontainer : p.isContainerType runtime = true := by
          simp only [Property.reads, Bool.and_eq_true] at hreads
          exact hreads.1.2
        simp [isWrapped_of_isContainerType hcontainer] at hwrapped

omit [DecidableEq Cls] in
/-- A call of an accessor keeps the fields of the other properties. -/
theorem keeps_other {q : Property Sel} (hlayout : Layout runtime cls properties)
    (hp : p ∈ properties) (hq : q ∈ properties) (hne : q ≠ p) (hcls : self.cls = cls)
    (hmem : (accessorType, sel) ∈ p.accessors)
    (hlookup : accessorType ≠ .getter → u.getterLookup sel = some p.getter)
    (hallocates : (p.implementation runtime accessorType).writes m = true →
      q.isDuplicated runtime = true → self.get q.getter = m.answer →
      self.contents m.answer = m.bytes)
    (h : self.perform m runtime u (p.implementation runtime accessorType) sel =
      .ok (es, returned, self')) {c : Content} (hkeeps : q.Keeps runtime self c) :
    q.Keeps runtime self' (q.update runtime c (.call sel m)) := by
  have hnot : ∀ qType, (qType, sel) ∉ q.accessors := fun qType hqmem =>
    hne (hlayout.accessor_inj q hq p hp qType accessorType sel hqmem hmem).1
  have hgetter : q.getter ≠ p.getter := by
    intro hsame
    refine hne (hlayout.accessor_inj q hq p hp .getter .getter q.getter ?_ ?_).1
    · exact mem_accessors.mpr (.inl ⟨rfl, rfl⟩)
    · exact mem_accessors.mpr (.inl ⟨rfl, hsame⟩)
  rw [update_of_notMem hnot]
  refine keeps_of_eq ?_ (fun hduplicated => ?_) hkeeps
  · obtain ⟨-, hget⟩ | ⟨-, key, haccess, hget⟩ := perform_get h
    · rw [hget]
    · rw [hcls] at haccess
      rw [hget, accessKey_eq hlayout hp hmem hlookup haccess, Function.update_of_ne hgetter]
  · rw [(perform_stores h).2.1]
    split_ifs with hwrites
    · by_cases haddress : self.get q.getter = m.answer
      · rw [haddress, Function.update_self, hallocates hwrites hduplicated haddress]
      · rw [Function.update_of_ne haddress]
    · rfl

end Call

/-- An object behaves like a record so far. -/
structure State.Tracks (runtime : Runtime Cls Sel) (cls : Cls) (properties : Set (Property Sel))
    (as : List (Act Cls Sel)) (s : State Cls Sel) : Prop where
  cls_eq : s.self.cls = cls
  sound : s.u.Sound runtime cls properties
  keeps : ∀ p ∈ properties, p.Keeps runtime s.self (p.content runtime as)
  getter : ∀ p ∈ properties, ∀ sel m, p.setter = some sel → Act.call sel m ∈ as →
    (∃ infra ∈ runtime.hierarchy cls, (s.u.methods infra p.getter).isSome = true) ∨
      searchDynamicProperty (runtime.properties cls) p.getter = some p
  descriptors : ∀ p, searchDynamicProperty (runtime.properties cls) p.getter = some p →
    ∀ accessorType sel, (accessorType, sel) ∈ p.accessors → (s.u.descriptors sel).isSome = true

section Run

variable {runtime : Runtime Cls Sel} {cls infra : Cls} {properties : Set (Property Sel)}
  {u : Universe Cls Sel} {s s' : State Cls Sel} {a : Act Cls Sel} {as bs : List (Act Cls Sel)}
  {p : Property Sel} {sel : Sel} {m : Message} {imp : Implementation} {es : Report Sel}
  {returned : Returned}

omit [DecidableEq Cls] in
theorem content_concat : p.content runtime (as ++ [a]) =
    p.update runtime (p.content runtime as) a := by
  rw [Property.content, List.foldl_append]
  rfl

omit [DecidableEq Cls] in
theorem tracks_init (hinitial : u.Initial runtime cls properties) :
    State.Tracks runtime cls properties [] ⟨u, Instance.init cls⟩ where
  cls_eq := rfl
  sound := hinitial.sound
  keeps _ _ := ⟨rfl, fun _ => rfl⟩
  getter _ _ _ _ _ h := by cases h
  descriptors := hinitial.descriptors

/-- What the universe gains is right. -/
theorem State.Tracks.gains (hlayout : Layout runtime cls properties)
    (h : s.Tracks runtime cls properties as)
    (hmakesUp : s.u.MakesUpRight runtime cls properties infra sel)
    (hgains : s.u.Gains runtime infra sel u) :
    State.Tracks runtime cls properties as { s with u := u } where
  cls_eq := h.cls_eq
  sound := h.sound.gains hlayout hmakesUp hgains
  keeps := h.keeps
  getter p hp sel m hsetter hmem := by
    obtain ⟨other, hother, hsome⟩ | hdeclared := h.getter p hp sel m hsetter hmem
    · exact .inl ⟨other, hother, hgains.isSome_methods hsome⟩
    · exact .inr hdeclared
  descriptors p hp accessorType sel hmem :=
    hgains.descriptors (h.descriptors p hp accessorType sel hmem)

omit [DecidableEq Cls] in
/-- A method that is found performs right. -/
theorem State.Tracks.perform (hlayout : Layout runtime cls properties)
    (h : s.Tracks runtime cls properties as) (hinfra : infra ∈ runtime.hierarchy cls)
    (himp : s.u.methods infra sel = some imp)
    (hallocates : imp.writes m = true → s.Allocates runtime properties m)
    {self' : Instance Cls Sel}
    (hperform : s.self.perform m runtime s.u imp sel = .ok (es, returned, self')) :
    State.Tracks runtime cls properties (as ++ [.call sel m]) { s with self := self' } where
  cls_eq := (perform_stores hperform).1.trans h.cls_eq
  sound := h.sound
  keeps := by
    intro p hp
    rw [content_concat]
    by_cases hmem : ∃ q ∈ properties, ∃ accessorType, (accessorType, sel) ∈ q.accessors
    · obtain ⟨q, hq, accessorType, hqmem⟩ := hmem
      obtain ⟨rfl, hlookup⟩ := h.sound.implementation infra hinfra sel imp himp q hq accessorType
        hqmem
      by_cases hsame : p = q
      · subst hsame
        exact keeps_own hlayout hp h.cls_eq hqmem hlookup (fun hwrites => (hallocates hwrites).1)
          hperform (h.keeps p hp)
      · exact keeps_other hlayout hq hp hsame h.cls_eq hqmem hlookup
          (fun hwrites => (hallocates hwrites).2 p hp) hperform (h.keeps p hp)
    · have hnot : ∀ q ∈ properties, ∀ accessorType, (accessorType, sel) ∉ q.accessors :=
        fun q hq accessorType hqmem => hmem ⟨q, hq, accessorType, hqmem⟩
      obtain rfl := h.sound.code infra hinfra sel imp himp hnot
      rw [update_of_notMem (hnot p hp)]
      cases hperform
      exact h.keeps p hp
  getter := by
    intro p hp otherSel other hsetter hmem
    obtain hbefore | hlast := List.mem_append.mp hmem
    · exact h.getter p hp otherSel other hsetter hbefore
    · cases List.mem_singleton.mp hlast
      obtain hgetter | hdeclared := h.sound.getter infra hinfra p hp .setter sel
        (mem_accessors.mpr (.inr (.inl ⟨rfl, hsetter⟩))) (by rw [himp]; rfl)
      · exact .inl ⟨infra, hinfra, hgetter⟩
      · exact .inr hdeclared
  descriptors := h.descriptors

theorem step_tracks (hlayout : Layout runtime cls properties)
    (hundisturbed : s.Undisturbed runtime properties a) (h : s.Tracks runtime cls properties as)
    (hstep : s.handle runtime a = some (bs, s')) : s'.Tracks runtime cls properties (as ++ bs) := by
  obtain ⟨⟨es, returned, s''⟩, hact, hr⟩ := Option.map_eq_some_iff.mp hstep
  cases hr
  obtain rfl := h.cls_eq
  cases acts_of_act hact with
  | handled hsend hperform =>
    obtain ⟨hmakesUp, hallocates⟩ := hundisturbed
    obtain ⟨hgains, other, hother, himp⟩ := Universe.gains_of_send hsend
    exact (h.gains hlayout hmakesUp hgains).perform hlayout hother himp
      (hallocates _ _ hsend) hperform
  | unhandled hsend =>
    rw [Option.isSome_none, if_neg Bool.false_ne_true, List.append_nil]
    exact h.gains hlayout hundisturbed.1 (Universe.gains_of_send_fail hsend)
  | other hsend =>
    rw [Option.isSome_none, if_neg Bool.false_ne_true, List.append_nil]
    obtain ⟨imp, hsend⟩ | hsend := hsend
    · exact h.gains hlayout hundisturbed (Universe.gains_of_send hsend).1
    · exact h.gains hlayout hundisturbed (Universe.gains_of_send_fail hsend)

theorem run_tracks (hlayout : Layout runtime cls properties)
    (hinitial : u.Initial runtime cls properties)
    (hrun : RunWhile (State.handle runtime) (State.Undisturbed runtime properties)
      ⟨u, Instance.init cls⟩ as s) : s.Tracks runtime cls properties as :=
  hrun.invariant_trace (fun as s => s.Tracks runtime cls properties as)
    (fun hundisturbed h hstep => step_tracks hlayout hundisturbed h hstep) (tracks_init hinitial)

omit [DecidableEq Cls] in
/-- The cases of a getter. -/
theorem getter_cases {self self' : Instance Cls Sel}
    (hperform : self.perform m runtime u (p.getterImplementation runtime) p.getter =
      .ok (es, returned, self')) :
    p.reads runtime p.getter = true ∧ p.isWrapped runtime = false ∧ returned = .pointer m.answer ∨
      p.reads runtime p.getter = false ∧ self' = self ∧
        returned = if p.isWrapped runtime = true then self.valueGetter p.getter
          else .pointer (self.get p.getter) := by
  have hassign : (self.assignGetterWillReadRelationship p.getter m).2.1 = .pointer m.answer := by
    unfold Instance.assignGetterWillReadRelationship
    split <;> rfl
  have hretain : (self.retainGetterWillReadRelationship p.getter m).2.1 = .pointer m.answer := by
    unfold Instance.retainGetterWillReadRelationship
    split <;> rfl
  unfold Property.getterImplementation at hperform
  unfold Property.reads Property.isContainerType Property.isWrapped
  cases hivarType : p.ivarType runtime with
  | voidPointer | strdup | value | number =>
    rw [hivarType] at hperform
    cases hperform
    exact .inr ⟨by simp, rfl, rfl⟩
  | assign =>
    rw [hivarType] at hperform
    cases hrelationship : p.isRelationship with
    | false =>
      rw [hrelationship] at hperform
      cases hperform
      exact .inr ⟨rfl, rfl, rfl⟩
    | true =>
      rw [hrelationship] at hperform
      have hreturned := congrArg (·.2.1) (Except.ok.inj hperform)
      exact .inl ⟨by simp, rfl, hreturned.symm.trans hassign⟩
  | retain | copy =>
    rw [hivarType] at hperform
    cases hrelationship : p.isRelationship with
    | false =>
      rw [hrelationship] at hperform
      cases hperform
      exact .inr ⟨rfl, rfl, rfl⟩
    | true =>
      rw [hrelationship] at hperform
      have hreturned := congrArg (·.2.1) (Except.ok.inj hperform)
      exact .inl ⟨by simp, rfl, hreturned.symm.trans hretain⟩

omit [DecidableEq Cls] in
/-- What a getter returns. -/
theorem perform_getter {self self' : Instance Cls Sel} {c : Content}
    (hkeeps : p.Keeps runtime self c) (hsetter : p.setter ≠ some p.getter)
    (hperform : self.perform m runtime u (p.getterImplementation runtime) p.getter =
      .ok (es, returned, self')) :
    p.Shows runtime (p.update runtime c (.call p.getter m)) returned self'.contents ↔
      (p.isWrapped runtime = true → ∃ bytes, c = .bytes bytes) := by
  rw [Property.update, if_neg hsetter]
  obtain ⟨hreads, hwrapped, rfl⟩ | ⟨hreads, rfl, rfl⟩ := getter_cases hperform
  · rw [if_pos hreads]
    simp [Property.Shows, hwrapped]
  · rw [if_neg (by simp [hreads])]
    cases c with
    | pointer value =>
      obtain ⟨hget, hzero⟩ := hkeeps
      by_cases hwrapped : p.isWrapped runtime = true
      · simp [Property.Shows, hwrapped, Instance.valueGetter, hget, hzero hwrapped]
      · simp [Property.Shows, hwrapped, hget]
    | bytes bytes =>
      obtain ⟨-, hne, hbytes⟩ := hkeeps
      by_cases hwrapped : p.isWrapped runtime = true
      · simp [Property.Shows, hwrapped, Instance.valueGetter, hne, hbytes]
      · rw [Property.Shows, if_neg hwrapped, if_neg hwrapped]
        exact iff_of_true ⟨_, hne, rfl, hbytes⟩ fun h => absurd h hwrapped

omit [DecidableEq Cls] in
theorem getter_isOk {self : Instance Cls Sel} :
    ∃ r, self.perform m runtime u (p.getterImplementation runtime) sel = .ok r := by
  unfold Property.getterImplementation
  cases p.ivarType runtime <;> cases p.isRelationship <;> exact ⟨_, rfl⟩

omit [DecidableEq Cls] in
/-- The accessors of a declared property do not fail. -/
theorem perform_isOk (hlayout : Layout runtime cls properties) {self : Instance Cls Sel}
    (hcls : self.cls = cls) {accessorType : AccessorType}
    (hdeclared : searchDynamicProperty (runtime.properties cls) sel = some p)
    (hmem : (accessorType, sel) ∈ p.accessors)
    (hlookup : accessorType ≠ .getter → u.getterLookup sel = some p.getter) :
    ∃ r, self.perform m runtime u (p.implementation runtime accessorType) sel = .ok r := by
  have hwithKey : ∀ f : Sel → Except Failure (Report Sel × Instance Cls Sel),
      accessorType ≠ .getter → (∃ r, f p.getter = .ok r) →
      ∃ r, self.withKey runtime u sel f = .ok r := by
    rintro f hne ⟨r, hr⟩
    have hkey : getKeyForSelector runtime u self.cls sel = .ok p.getter := by
      unfold getKeyForSelector
      rw [hlookup hne, hcls, hdeclared]
      dsimp only
      split <;> rfl
    unfold Instance.withKey
    rw [hkey]
    dsimp only
    rw [hr]
    exact ⟨_, rfl⟩
  cases accessorType with
  | getter => exact getter_isOk
  | setter =>
    have hgeneric : ∃ r, self.genericValueSetter p.getter m runtime = .ok r := by
      unfold Instance.genericValueSetter
      rw [hcls, hlayout.searchDynamicProperty_getter (runtime.mem_hierarchy cls) hdeclared]
      exact ⟨_, rfl⟩
    simp only [Property.implementation, Property.setterImplementation]
    cases p.ivarType runtime with
    | value | number =>
      dsimp only
      split_ifs <;> first
        | exact hwithKey _ (by simp) ⟨_, rfl⟩
        | exact hwithKey _ (by simp) hgeneric
    | _ => exact hwithKey _ (by simp) ⟨_, rfl⟩
  | adder | remover => exact hwithKey _ (by simp) ⟨_, rfl⟩
  | invalid => exact absurd rfl (ne_invalid_of_mem_accessors hmem)

theorem act_of_send (hsend : s.u.send runtime s.self.cls sel = .method imp u)
    {r : Report Sel × Returned × Instance Cls Sel}
    (hperform : s.self.perform m runtime u imp sel = .ok r) :
    s.act runtime (.call sel m) = some (r.1, some r.2.1, ⟨u, r.2.2⟩) := by
  simp only [State.act, hsend, hperform]

omit [DecidableEq Cls] in
theorem makesUpRight_of_isSome (h : (s.u.searchMethod runtime infra sel).isSome = true ∨
    (searchDynamicProperty (runtime.properties infra) sel).isSome = true) :
    s.u.MakesUpRight runtime cls properties infra sel := by
  intro setter hsetter
  have hnone : s.u.madeUpSetter runtime infra sel = none := by
    obtain hsome | hsome := h <;> simp [Universe.madeUpSetter, hsome]
  rw [hnone] at hsetter
  cases hsetter

/-- A message that finds a method, or a declared property, gets the right method. -/
theorem State.Tracks.implementation (hlayout : Layout runtime cls properties)
    (h : s.Tracks runtime cls properties as) (hp : p ∈ properties) {accessorType : AccessorType}
    (hmem : (accessorType, sel) ∈ p.accessors)
    (hsome : (s.u.searchMethod runtime cls sel).isSome = true ∨
      (searchDynamicProperty (runtime.properties cls) sel).isSome = true)
    (hsend : s.u.send runtime cls sel = .method imp u) :
    imp = p.implementation runtime accessorType ∧
      (accessorType ≠ .getter → u.getterLookup sel = some p.getter) := by
  obtain ⟨hgains, other, hother, himp⟩ := Universe.gains_of_send hsend
  have hsound := h.sound.gains hlayout (makesUpRight_of_isSome hsome) hgains
  exact hsound.implementation other hother sel imp himp p hp accessorType hmem

theorem State.Tracks.send (hlayout : Layout runtime cls properties)
    (h : s.Tracks runtime cls properties as)
    (hdeclared : searchDynamicProperty (runtime.properties cls) sel = some p) :
    ∃ imp u, s.u.send runtime cls sel = .method imp u := by
  have hgetter := hlayout.searchDynamicProperty_getter (runtime.mem_hierarchy cls) hdeclared
  exact h.sound.handles hlayout hdeclared fun a ha => h.descriptors p hgetter a.1 a.2 ha

/-- An accessor of a declared property always finds its method, or creates it. -/
theorem State.Tracks.handles (hlayout : Layout runtime cls properties)
    (h : s.Tracks runtime cls properties as)
    (hdeclared : searchDynamicProperty (runtime.properties cls) sel = some p) (m : Message) :
    ∃ es returned s', s.act runtime (.call sel m) = some (es, some returned, s') := by
  obtain ⟨imp, u, hsend⟩ := h.send hlayout hdeclared
  obtain ⟨accessorType, hmem⟩ := mem_accessors_of_isFound (List.find?_some hdeclared)
  have hp := hlayout.declared cls (runtime.mem_hierarchy cls) sel p hdeclared
  obtain ⟨rfl, hlookup⟩ := h.implementation hlayout hp hmem (.inr (by rw [hdeclared]; rfl)) hsend
  obtain ⟨r, hr⟩ := perform_isOk hlayout h.cls_eq hdeclared hmem hlookup
  rw [← h.cls_eq] at hsend
  exact ⟨_, _, _, act_of_send hsend hr⟩

/-- An object behaves like a record: each accessor of a declared property is handled, and a getter
returns what its field holds, if it is declared or its setter was called before. Only the getter
of a value in a wrapper returns nothing as long as nothing is stored. -/
theorem getter_returns_content (hlayout : Layout runtime cls properties)
    (hinitial : u.Initial runtime cls properties)
    (hrun : RunWhile (State.handle runtime) (State.Undisturbed runtime properties)
      ⟨u, Instance.init cls⟩ as s) :
    (∀ sel p, searchDynamicProperty (runtime.properties cls) sel = some p → ∀ m,
      ∃ es returned s', s.act runtime (.call sel m) = some (es, some returned, s')) ∧
    ∀ p ∈ properties, searchDynamicProperty (runtime.properties cls) p.getter = some p ∨
        (∃ sel m, p.setter = some sel ∧ Act.call sel m ∈ as) → ∀ m,
      ∃ es returned s', s.act runtime (.call p.getter m) = some (es, some returned, s') ∧
        (p.Shows runtime (p.content runtime (as ++ [.call p.getter m])) returned s'.self.contents ↔
          (p.isWrapped runtime = true → ∃ bytes, p.content runtime as = .bytes bytes)) := by
  have h := run_tracks hlayout hinitial hrun
  refine ⟨fun sel p hdeclared m => h.handles hlayout hdeclared m, fun p hp hexists m => ?_⟩
  have hmem : (AccessorType.getter, p.getter) ∈ p.accessors := mem_accessors.mpr (.inl ⟨rfl, rfl⟩)
  have hsetter : p.setter ≠ some p.getter := by
    intro hsame
    have hsettermem : (AccessorType.setter, p.getter) ∈ p.accessors :=
      mem_accessors.mpr (.inr (.inl ⟨rfl, hsame⟩))
    cases (hlayout.accessor_inj p hp p hp _ _ _ hmem hsettermem).2
  have hfound : (∃ infra ∈ runtime.hierarchy cls, (s.u.methods infra p.getter).isSome = true) ∨
      searchDynamicProperty (runtime.properties cls) p.getter = some p := by
    obtain hdeclared | ⟨sel, other, hsel, hcalled⟩ := hexists
    · exact .inr hdeclared
    · exact h.getter p hp sel other hsel hcalled
  obtain ⟨imp, u, hsome, hsend⟩ : ∃ imp u, ((s.u.searchMethod runtime cls p.getter).isSome = true ∨
      (searchDynamicProperty (runtime.properties cls) p.getter).isSome = true) ∧
      s.u.send runtime cls p.getter = .method imp u := by
    obtain ⟨infra, hinfra, hmethod⟩ | hdeclared := hfound
    · have hsearch : (s.u.searchMethod runtime cls p.getter).isSome = true :=
        List.findSome?_isSome_iff.mpr ⟨infra, hinfra, hmethod⟩
      obtain ⟨imp, himp⟩ := Option.isSome_iff_exists.mp hsearch
      exact ⟨imp, s.u, .inl hsearch, by rw [Universe.send, himp]⟩
    · obtain ⟨imp, u, hsend⟩ := h.send hlayout hdeclared
      exact ⟨imp, u, .inr (by rw [hdeclared]; rfl), hsend⟩
  obtain ⟨rfl, -⟩ := h.implementation hlayout hp hmem hsome hsend
  obtain ⟨r, hr⟩ : ∃ r, s.self.perform m runtime u (p.getterImplementation runtime) p.getter =
    .ok r := getter_isOk
  rw [← h.cls_eq] at hsend
  refine ⟨_, _, _, act_of_send hsend hr, ?_⟩
  rw [content_concat]
  exact perform_getter (h.keeps p hp) hsetter hr

end Run

/-- A fully dynamic class with a number `x`. -/
def fullyDynamicX : Runtime Unit (List Char) :=
  { oneClass [propertyX .dbl] with
    haveFullyDynamic := true
    isFullyDynamic := fun _ => true }

/-- The property that is made up for `setFoo:`. -/
def propertyFoo : Property (List Char) where
  type := .retainId
  isDynamic := false
  isObservable := true
  getter := ['f', 'o', 'o']
  setter := some ['s', 'e', 't', 'F', 'o', 'o', ':']

theorem accessors_inj_fullyDynamicX :
    ∀ p ∈ [propertyX .dbl, propertyFoo], ∀ q ∈ [propertyX .dbl, propertyFoo],
      ∀ a ∈ p.accessors, ∀ b ∈ q.accessors, a.2 = b.2 → p = q ∧ a.1 = b.1 := by
  decide

theorem layout_fullyDynamicX :
    Layout fullyDynamicX () { p | p ∈ [propertyX .dbl, propertyFoo] } where
  declared _ _ sel p hp := List.mem_append_left _ (List.mem_of_find?_eq_some hp)
  inherited _ _ _ _ hp := hp
  accessor_inj p hp q hq pType qType sel hpmem hqmem :=
    accessors_inj_fullyDynamicX p hp q hq _ hpmem _ hqmem rfl
  containers p hp accessorType sel hmem := by
    have hnone : ∀ p ∈ [propertyX .dbl, propertyFoo], ∀ a ∈ p.accessors,
        a.1 = .adder ∨ a.1 = .remover → p.isContainerType fullyDynamicX = true := by decide
    exact hnone p hp _ hmem
  elsewhere _ sel q hq p hp pType qType other _ _ hqmem hpmem := by
    have hmem : q ∈ [propertyX .dbl, propertyFoo] :=
      List.mem_append_left _ (List.mem_of_find?_eq_some hq)
    rw [(accessors_inj_fullyDynamicX q hmem p hp _ hqmem _ hpmem rfl).1]

/-- Any name has its selector. -/
def universeXNamed : Universe Unit (List Char) := { universeX .dbl with hashstrings := some }

theorem initial_fullyDynamicX :
    universeXNamed.Initial fullyDynamicX () { p | p ∈ [propertyX .dbl, propertyFoo] } where
  code _ _ _ h := by cases h
  accessors _ _ _ _ _ _ _ := rfl
  getterLookup _ := rfl
  descriptors p hp accessorType sel hmem := by
    have hX : p ∈ [propertyX .dbl] := List.mem_of_find?_eq_some hp
    have hknown : ∀ p ∈ [propertyX .dbl], ∀ a ∈ p.accessors,
        (universeXNamed.descriptors a.2).isSome = true := by decide
    exact hknown p hX _ hmem

/-- A number and an object that was never declared are stored side by side. -/
theorem getter_returns_content_fullyDynamicX : ∃ s : State Unit (List Char),
    (∃ es s', s.act fullyDynamicX (.call ['x'] {}) = some (es, some (.block [1, 2]), s')) ∧
    ∃ es s', s.act fullyDynamicX (.call ['f', 'o', 'o'] {}) = some (es, some (.pointer 5), s') := by
  have hrun : ∃ (as : List (Act Unit (List Char))) (s : State Unit (List Char)),
      RunWhile (State.handle fullyDynamicX)
        (State.Undisturbed fullyDynamicX { p | p ∈ [propertyX .dbl, propertyFoo] })
        ⟨universeXNamed, Instance.init ()⟩ as s ∧
      as = [.call ['s', 'e', 't', 'X', ':'] ⟨1, [1, 2], 7⟩,
        .call ['s', 'e', 't', 'F', 'o', 'o', ':'] ⟨5, [], 0⟩] := by
    refine ⟨_, _, ((RunWhile.refl _).tail (.call ['s', 'e', 't', 'X', ':'] ⟨1, [1, 2], 7⟩) ?_
      rfl).tail (.call ['s', 'e', 't', 'F', 'o', 'o', ':'] ⟨5, [], 0⟩) ?_ rfl, rfl⟩
    · refine ⟨fun _ h => (by cases h), fun _ _ _ _ => ⟨by decide, fun p hp hd hget => ?_⟩⟩
      cases hget
    · have hfoo : propertyFoo ∈ [propertyX .dbl, propertyFoo] :=
        List.mem_cons_of_mem _ (List.mem_singleton_self _)
      refine ⟨fun setter hsetter => ?_, ?_⟩
      · have hmeant : meantProperty fullyDynamicX setter = propertyFoo ∧
            getterName setter.name = valueName setter.name := by
          cases hsetter
          exact ⟨rfl, by decide⟩
        rw [hmeant.1]
        refine ⟨hmeant.2, fun _ => hfoo, fun p hp pType qType sel _ _ hpmem hqmem => ?_⟩
        rw [(accessors_inj_fullyDynamicX _ hfoo p hp _ hpmem _ hqmem rfl).1]
      · rintro _ _ ⟨⟩ hwrites
        cases hwrites
  obtain ⟨as, s, hrun, rfl⟩ := hrun
  obtain ⟨-, hgetter⟩ := getter_returns_content layout_fullyDynamicX initial_fullyDynamicX hrun
  refine ⟨s, ?_, ?_⟩
  · obtain ⟨es, returned, s', hact, hshows⟩ := hgetter (propertyX .dbl) List.mem_cons_self
      (.inl rfl) {}
    obtain rfl : returned = .block [1, 2] := hshows.mpr fun _ => ⟨_, rfl⟩
    exact ⟨es, s', hact⟩
  · obtain ⟨es, returned, s', hact, hshows⟩ := hgetter propertyFoo
      (List.mem_cons_of_mem _ (List.mem_singleton_self _))
      (.inr ⟨_, _, rfl, List.mem_cons_of_mem _ (List.mem_singleton_self _)⟩) {}
    obtain rfl : returned = .pointer 5 := hshows.mpr fun h => (by cases h)
    exact ⟨es, s', hact⟩

/-- As long as a number is not set, its getter does not return zero, but nothing. -/
theorem unset_number_not_returned :
    ¬ ∀ (runtime : Runtime Unit (List Char)) (properties : Set (Property (List Char)))
      (u : Universe Unit (List Char)) (as : List (Act Unit (List Char)))
      (s : State Unit (List Char)),
      Layout runtime () properties → u.Initial runtime () properties →
      RunWhile (State.handle runtime) (State.Undisturbed runtime properties)
        ⟨u, Instance.init ()⟩ as s →
      ∀ p ∈ properties, searchDynamicProperty (runtime.properties ()) p.getter = some p → ∀ m,
        ∃ es returned s', s.act runtime (.call p.getter m) = some (es, some returned, s') ∧
          p.Shows runtime (p.content runtime (as ++ [.call p.getter m])) returned
            s'.self.contents := by
  intro hclaim
  obtain ⟨es, returned, s', hact, hshows⟩ := hclaim fullyDynamicX _ universeXNamed [] _
    layout_fullyDynamicX initial_fullyDynamicX (.refl _) (propertyX .dbl) List.mem_cons_self rfl {}
  obtain ⟨size, hsize⟩ : ∃ size, returned = .block (List.replicate size 0) := hshows
  cases hact
  cases hsize

end MulleObjC.Dynamic
