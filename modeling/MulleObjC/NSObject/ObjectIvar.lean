import MulleObjC.AtomicId.Update

/-!
# Setting an object ivar

`MulleObjCObjectSetObjectIvar` autoreleases the old value of a retained or copied ivar before it
sends `-retain` or `-copy` to the new one. If this raises, the ivar still holds the old value,
but its reference belongs to the autorelease pool.
-/

namespace MulleObjC.ObjectIvar

open Machine Holdings
open AtomicId (IvarType)

/-- An ivar of a class. Every type other than `_C_COPY_ID` and `_C_RETAIN_ID` is assigned. -/
structure Ivar (Signature : Type*) where
  /-- It is -1 if the ivar is hashed. -/
  offset : ℤ
  signature : Signature

/-- The parts of the runtime that the function calls. -/
structure Runtime (Obj IvarId Signature : Type*) where
  /-- `_mulle_objc_infraclass_search_ivar`, in the class of an object -/
  searchIvar : Obj → IvarId → Option (Ivar Signature)
  /-- The type behind `_mulle_objc_signature_skip_extendedtypeinfo`. -/
  typeinfo : Signature → IvarType

/-- What `-copy` or `-retain` does. -/
inductive Reply (Obj : Type*)
  /-- It returns. If it is `-copy`, it returns this. -/
  | returned (copied : Option Obj)
  | raised
  deriving DecidableEq

/-- An exception that leaves the function. -/
inductive Exception (IvarId : Type*)
  /-- "Class %08x \"%s\" has no ivar with id %08x found" -/
  | invalidArgument (ivarid : IvarId)
  /-- "hashed access not yet implemented" -/
  | internalInconsistency
  /-- The exception of `-copy` or `-retain`. -/
  | ofMessage
  deriving DecidableEq

/-- How the function is left. -/
inductive Result (IvarId : Type*)
  | returned
  | raised (e : Exception IvarId)
  deriving DecidableEq

/-- What happens to the references of an ivar. -/
inductive Event (Obj IvarId : Type*)
  /-- The ivar has got a new reference by `-retain` or `-copy`. -/
  | taken (p : Obj × IvarId) (o : Obj)
  | autoreleased (p : Obj × IvarId) (o : Obj)
  deriving DecidableEq

/-- The ivars of all objects, each in a place of its own, the retain counts, what is in the
autorelease pool, and the references of all others. -/
structure State (Obj IvarId : Type*) where
  ivars : Obj × IvarId → Option Obj
  retainCount : Obj → ℕ
  pool : List Obj
  others : Obj → ℕ

/-- What is left behind by a call. -/
structure Outcome (Obj IvarId : Type*) where
  result : Result IvarId
  events : List (Event Obj IvarId)
  state : State Obj IvarId

variable {Obj IvarId Signature : Type*}

/-- The object that `-copy` or `-retain` returns, or none if it raises. A message to nil returns
nil. -/
def message (ivarType : IvarType) : Option Obj → Reply Obj → Option (Option Obj)
  | none, _ => some none
  | some _, .raised => none
  | some value, .returned copied => some (ivarType.stored (some value) copied)

/-- The type of an ivar that can be set. -/
def Runtime.ivarType? (runtime : Runtime Obj IvarId Signature) (p : Obj × IvarId) :
    Option IvarType :=
  (runtime.searchIvar p.1 p.2).bind fun ivar =>
    if ivar.offset = -1 then none else some (runtime.typeinfo ivar.signature)

/-- The ivar owns a reference to its value. -/
def Runtime.owns (runtime : Runtime Obj IvarId Signature) (p : Obj × IvarId) : Bool :=
  runtime.ivarType? p = some .retain || runtime.ivarType? p = some .copy

variable [DecidableEq Obj] [DecidableEq IvarId]

namespace State

/-- No ivar has been set. Whatever the retain counts are, the references are of others. -/
def init (retainCount : Obj → ℕ) : State Obj IvarId :=
  ⟨fun _ => none, retainCount, [], retainCount⟩

/-- `[old autorelease]` -/
def autorelease (s : State Obj IvarId) (old : Option Obj) : State Obj IvarId :=
  { s with pool := old.toList ++ s.pool }

/-- A new reference. -/
def take (s : State Obj IvarId) (value : Option Obj) : State Obj IvarId :=
  { s with retainCount := fun o => s.retainCount o + if value = some o then 1 else 0 }

/-- `*p = value` -/
def store (s : State Obj IvarId) (p : Obj × IvarId) (value : Option Obj) : State Obj IvarId :=
  { s with ivars := Function.update s.ivars p value }

/-- The pool releases what it holds. -/
def pop (s : State Obj IvarId) : State Obj IvarId :=
  { s with retainCount := fun o => s.retainCount o - s.pool.count o, pool := [] }

/-- `-retain`, sent by others. -/
def retain (s : State Obj IvarId) (o : Obj) : State Obj IvarId :=
  { s with
    retainCount := Function.update s.retainCount o (s.retainCount o + 1)
    others := Function.update s.others o (s.others o + 1) }

/-- `-release`, sent by others that have a reference. -/
def release (s : State Obj IvarId) (o : Obj) : Option (State Obj IvarId) :=
  if 0 < s.others o then
    some { s with
      retainCount := Function.update s.retainCount o (s.retainCount o - 1)
      others := Function.update s.others o (s.others o - 1) }
  else none

/-- The references of an owning ivar to an object. -/
def held (s : State Obj IvarId) (p : Obj × IvarId) (o : Obj) : ℕ :=
  if s.ivars p = some o then 1 else 0

end State

/-- The cases `_C_COPY_ID` and `_C_RETAIN_ID`, with `*p = value` behind them. -/
def setOwning (s : State Obj IvarId) (p : Obj × IvarId) (ivarType : IvarType)
    (value : Option Obj) (reply : Reply Obj) : Outcome Obj IvarId :=
  let old := s.ivars p
  let s := s.autorelease old
  let autoreleased := old.toList.map (.autoreleased p)
  match message ivarType value reply with
  | none => ⟨.raised .ofMessage, autoreleased, s⟩
  | some value =>
    ⟨.returned, autoreleased ++ value.toList.map (.taken p), (s.take value).store p value⟩

/-- `MulleObjCObjectSetObjectIvar` -/
def setObjectIvar (runtime : Runtime Obj IvarId Signature) (s : State Obj IvarId)
    (self : Option Obj) (ivarid : IvarId) (value : Option Obj) (reply : Reply Obj) :
    Outcome Obj IvarId :=
  match self with
  | none => ⟨.returned, [], s⟩
  | some obj =>
    match runtime.searchIvar obj ivarid with
    | none => ⟨.raised (.invalidArgument ivarid), [], s⟩
    | some ivar =>
      if ivar.offset = -1 then ⟨.raised .internalInconsistency, [], s⟩
      else
        let p := (obj, ivarid)
        match runtime.typeinfo ivar.signature with
        | .copy => setOwning s p .copy value reply
        | .retain => setOwning s p .retain value reply
        | .assign => ⟨.returned, [], s.store p value⟩

/-- What the function does with an ivar of an object. -/
inductive Sets (runtime : Runtime Obj IvarId Signature) (s : State Obj IvarId)
    (p : Obj × IvarId) (value : Option Obj) (reply : Reply Obj) : Outcome Obj IvarId → Prop
  /-- There is no such ivar, or it is hashed. -/
  | refused (e : Exception IvarId) (howns : runtime.owns p = false) :
      Sets runtime s p value reply ⟨.raised e, [], s⟩
  | assigned (howns : runtime.owns p = false) :
      Sets runtime s p value reply ⟨.returned, [], s.store p value⟩
  | raised (howns : runtime.owns p = true) (hvalue : value ≠ none) (hreply : reply = .raised) :
      Sets runtime s p value reply ⟨.raised .ofMessage,
        (s.ivars p).toList.map (.autoreleased p), s.autorelease (s.ivars p)⟩
  | stored {ivarType : IvarType} {stored : Option Obj} (howns : runtime.owns p = true)
      (htype : runtime.ivarType? p = some ivarType)
      (hmessage : message ivarType value reply = some stored) :
      Sets runtime s p value reply ⟨.returned,
        (s.ivars p).toList.map (.autoreleased p) ++ stored.toList.map (.taken p),
        ((s.autorelease (s.ivars p)).take stored).store p stored⟩

omit [DecidableEq Obj] [DecidableEq IvarId] in
theorem message_eq_none_iff {ivarType : IvarType} {value : Option Obj} {reply : Reply Obj} :
    message ivarType value reply = none ↔ value ≠ none ∧ reply = .raised := by
  cases value <;> cases reply <;> simp [message]

theorem setOwning_sets {runtime : Runtime Obj IvarId Signature} {p : Obj × IvarId}
    {ivarType : IvarType} (s : State Obj IvarId) (value : Option Obj) (reply : Reply Obj)
    (howns : runtime.owns p = true) (htype : runtime.ivarType? p = some ivarType) :
    Sets runtime s p value reply (setOwning s p ivarType value reply) := by
  rw [setOwning]
  cases hmessage : message ivarType value reply with
  | none =>
    obtain ⟨hvalue, hreply⟩ := message_eq_none_iff.mp hmessage
    exact .raised howns hvalue hreply
  | some stored => exact .stored howns htype hmessage

theorem setObjectIvar_sets (runtime : Runtime Obj IvarId Signature) (s : State Obj IvarId)
    (obj : Obj) (ivarid : IvarId) (value : Option Obj) (reply : Reply Obj) :
    Sets runtime s (obj, ivarid) value reply
      (setObjectIvar runtime s (some obj) ivarid value reply) := by
  rw [setObjectIvar]
  cases hsearch : runtime.searchIvar obj ivarid with
  | none =>
    have htype : runtime.ivarType? (obj, ivarid) = none := by simp [Runtime.ivarType?, hsearch]
    exact .refused _ (by rw [Runtime.owns, htype]; rfl)
  | some ivar =>
    dsimp only
    by_cases hoffset : ivar.offset = -1
    · have htype : runtime.ivarType? (obj, ivarid) = none := by
        simp [Runtime.ivarType?, hsearch, hoffset]
      rw [if_pos hoffset]
      exact .refused _ (by rw [Runtime.owns, htype]; rfl)
    · have htype : runtime.ivarType? (obj, ivarid) = some (runtime.typeinfo ivar.signature) := by
        simp [Runtime.ivarType?, hsearch, hoffset]
      rw [if_neg hoffset]
      cases hinfo : runtime.typeinfo ivar.signature with
      | assign =>
        rw [hinfo] at htype
        exact .assigned (by rw [Runtime.owns, htype]; rfl)
      | retain =>
        rw [hinfo] at htype
        exact setOwning_sets s value reply (by rw [Runtime.owns, htype]; rfl) htype
      | copy =>
        rw [hinfo] at htype
        exact setOwning_sets s value reply (by rw [Runtime.owns, htype]; rfl) htype

/-- What is done next. -/
inductive Act (Obj IvarId : Type*)
  | setObjectIvar (self : Option Obj) (ivarid : IvarId) (value : Option Obj) (reply : Reply Obj)
  /-- The autorelease pool is popped. -/
  | pop
  | retain (o : Obj)
  | release (o : Obj)

/-- One call, or something that goes on between two calls. -/
def step (runtime : Runtime Obj IvarId Signature) (s : State Obj IvarId) :
    Act Obj IvarId → Option (List (Event Obj IvarId) × State Obj IvarId)
  | .setObjectIvar self ivarid value reply =>
    let r := setObjectIvar runtime s self ivarid value reply
    some (r.events, r.state)
  | .pop => some ([], s.pop)
  | .retain o => some ([], s.retain o)
  | .release o => (s.release o).map ([], ·)

/-- The call raises, and an owning ivar loses the reference to the object that it holds. -/
def losesReference (runtime : Runtime Obj IvarId Signature) (s : State Obj IvarId) :
    Act Obj IvarId → Bool
  | .setObjectIvar (some obj) ivarid (some _) .raised =>
    runtime.owns (obj, ivarid) && (s.ivars (obj, ivarid)).isSome
  | _ => false

/-- As a condition. -/
def Safe (runtime : Runtime Obj IvarId Signature) (s : State Obj IvarId) (a : Act Obj IvarId) :
    Prop :=
  losesReference runtime s a = false

instance (runtime : Runtime Obj IvarId Signature) (s : State Obj IvarId) (a : Act Obj IvarId) :
    Decidable (Safe runtime s a) :=
  inferInstanceAs (Decidable (_ = _))

/-- A call that raises changes nothing for the old value. A call that returns takes one
reference to the new value and autoreleases the old one once, and if the ivar is assigned there
are no references. -/
structure CallSpec (runtime : Runtime Obj IvarId Signature) (s : State Obj IvarId)
    (p : Obj × IvarId) (value : Option Obj) (reply : Reply Obj) (r : Outcome Obj IvarId) :
    Prop where
  raised : ∀ e, r.result = .raised e → r.state.ivars p = s.ivars p ∧
    ∀ old, s.ivars p = some old → r.state.retainCount old = s.retainCount old ∧
      r.state.pool.count old = s.pool.count old
  returned : r.result = .returned → runtime.owns p = true →
    ∃ ivarType stored, runtime.ivarType? p = some ivarType ∧
      message ivarType value reply = some stored ∧ r.state.ivars p = stored ∧
      ∀ o, r.state.retainCount o = s.retainCount o + (if stored = some o then 1 else 0) ∧
        r.state.pool.count o = s.pool.count o + s.held p o
  assigned : r.result = .returned → runtime.owns p = false → r.state.ivars p = value ∧
    r.state.retainCount = s.retainCount ∧ r.state.pool = s.pool

/-- A call meets its specification. To set an ivar of nil does nothing. -/
def MeetsSpec (runtime : Runtime Obj IvarId Signature) (s : State Obj IvarId) :
    Act Obj IvarId → Prop
  | .setObjectIvar none ivarid value reply =>
    setObjectIvar runtime s none ivarid value reply = ⟨.returned, [], s⟩
  | .setObjectIvar (some obj) ivarid value reply =>
    CallSpec runtime s (obj, ivarid) value reply
      (setObjectIvar runtime s (some obj) ivarid value reply)
  | .pop | .retain _ | .release _ => True

section Call

variable {runtime : Runtime Obj IvarId Signature} {s : State Obj IvarId} {p : Obj × IvarId}
  {value : Option Obj} {reply : Reply Obj} {r : Outcome Obj IvarId}

theorem count_toList (value : Option Obj) (o : Obj) :
    value.toList.count o = if value = some o then 1 else 0 := by
  cases value with
  | none => rfl
  | some v => simp [List.count_singleton, beq_iff_eq]

omit [DecidableEq IvarId] in
@[simp] theorem State.count_autorelease (s : State Obj IvarId) (old : Option Obj) (o : Obj) :
    (s.autorelease old).pool.count o = s.pool.count o + if old = some o then 1 else 0 := by
  rw [State.autorelease, List.count_append, count_toList, Nat.add_comm]

/-- The exact condition for one call. -/
theorem Sets.callSpec_iff (h : Sets runtime s p value reply r) :
    CallSpec runtime s p value reply r ↔
      ¬ (runtime.owns p = true ∧ value ≠ none ∧ reply = .raised ∧ (s.ivars p).isSome = true) := by
  cases h with
  | refused e howns =>
    refine iff_of_true ⟨?_, ?_, ?_⟩ ?_
    · exact fun _ _ => ⟨rfl, fun _ _ => ⟨rfl, rfl⟩⟩
    · exact fun hr => absurd hr (by simp)
    · exact fun hr => absurd hr (by simp)
    · simp [howns]
  | assigned howns =>
    refine iff_of_true ⟨?_, ?_, ?_⟩ ?_
    · exact fun _ hr => absurd hr (by simp)
    · exact fun _ htrue => absurd htrue (by simp [howns])
    · exact fun _ _ => ⟨by simp [State.store], rfl, rfl⟩
    · simp [howns]
  | raised howns hvalue hreply =>
    constructor
    · rintro hspec ⟨-, -, -, hold⟩
      obtain ⟨old, hold⟩ := Option.isSome_iff_exists.mp hold
      have hcount := ((hspec.raised _ rfl).2 old hold).2
      rw [State.count_autorelease, if_pos hold] at hcount
      omega
    · intro hsafe
      have hnone : s.ivars p = none := by
        by_contra hne
        exact hsafe ⟨howns, hvalue, hreply, Option.isSome_iff_ne_none.mpr hne⟩
      refine ⟨?_, ?_, ?_⟩
      · exact fun _ _ => ⟨rfl, fun old hold => absurd (hnone.symm.trans hold) (by simp)⟩
      · exact fun hr => absurd hr (by simp)
      · exact fun hr => absurd hr (by simp)
  | @stored ivarType stored howns htype hmessage =>
    refine iff_of_true ⟨?_, ?_, ?_⟩ ?_
    · exact fun _ hr => absurd hr (by simp)
    · refine fun _ _ => ⟨ivarType, stored, htype, hmessage, by simp [State.store], ?_⟩
      intro o
      exact ⟨rfl, State.count_autorelease s _ o⟩
    · exact fun _ hfalse => absurd hfalse (by simp [howns])
    · rintro ⟨-, hvalue, hreply, -⟩
      rw [message_eq_none_iff.mpr ⟨hvalue, hreply⟩] at hmessage
      cases hmessage

end Call

/-- The retain count of an object covers the ivars that own it, the autorelease pool and all
others. -/
def State.Backed (runtime : Runtime Obj IvarId Signature) (s : State Obj IvarId) : Prop :=
  ∀ owning : Finset (Obj × IvarId), (∀ p ∈ owning, runtime.owns p = true) → ∀ o,
    count owning s.ivars o + s.pool.count o + s.others o ≤ s.retainCount o

/-- The references of the ivars, after the events of a run. -/
structure Accounted (runtime : Runtime Obj IvarId Signature) (es : List (Event Obj IvarId))
    (s : State Obj IvarId) : Prop where
  /-- An owning ivar has one reference to what it holds, and has given up all others. -/
  balanced : ∀ p o, runtime.owns p = true →
    es.count (.taken p o) = es.count (.autoreleased p o) + s.held p o
  /-- All other ivars have no references. -/
  unowned : ∀ p o, runtime.owns p = false → .taken p o ∉ es ∧ .autoreleased p o ∉ es
  backed : s.Backed runtime

section Run

variable {runtime : Runtime Obj IvarId Signature} {s s' : State Obj IvarId} {p q : Obj × IvarId}
  {value : Option Obj} {reply : Reply Obj} {r : Outcome Obj IvarId}
  {es fs : List (Event Obj IvarId)} {o : Obj}

omit [DecidableEq IvarId] in
/-- What an owning ivar holds is alive. -/
theorem State.Backed.retainCount_pos (h : s.Backed runtime) (howns : runtime.owns p = true)
    (hp : s.ivars p = some o) : 0 < s.retainCount o := by
  have hle := h {p} (by simpa using howns) o
  have hone : count {p} s.ivars o = 1 := by
    rw [count, Finset.filter_singleton, if_pos hp, Finset.card_singleton]
  omega

theorem accounted_init (runtime : Runtime Obj IvarId Signature) (retainCount : Obj → ℕ) :
    Accounted runtime [] (State.init retainCount : State Obj IvarId) := by
  refine ⟨?_, ?_, ?_⟩
  · intro p o _
    simp [State.held, State.init]
  · intro p o _
    exact ⟨List.not_mem_nil, List.not_mem_nil⟩
  · intro owning _ o
    have hzero : count owning (fun _ => none) o = 0 := count_eq_zero fun _ _ => by simp
    simp [hzero, State.init]

theorem count_map_taken (value : Option Obj) : (value.toList.map (.taken p)).count
    (.taken q o : Event Obj IvarId) = if p = q ∧ value = some o then 1 else 0 := by
  cases value with
  | none => simp
  | some v => simp [List.count_singleton, beq_iff_eq]

theorem count_map_autoreleased (value : Option Obj) : (value.toList.map (.autoreleased p)).count
    (.autoreleased q o : Event Obj IvarId) = if p = q ∧ value = some o then 1 else 0 := by
  cases value with
  | none => simp
  | some v => simp [List.count_singleton, beq_iff_eq]

theorem State.held_store (s : State Obj IvarId) (value : Option Obj) :
    (s.store p value).held q o =
      if p = q then (if value = some o then 1 else 0) else s.held q o := by
  by_cases hpq : p = q
  · subst hpq
    simp [State.held, State.store]
  · simp [State.held, State.store, hpq, Function.update_of_ne (Ne.symm hpq)]

/-- An ivar without references can be set to anything. -/
theorem Accounted.assign (h : Accounted runtime es s) (howns : runtime.owns p = false) :
    Accounted runtime (es ++ []) (s.store p value) := by
  rw [List.append_nil]
  refine ⟨?_, h.unowned, ?_⟩
  · intro q o hq
    have hpq : p ≠ q := by
      rintro rfl
      exact absurd hq (by simp [howns])
    rw [State.held_store, if_neg hpq]
    exact h.balanced q o hq
  · intro owning howning o
    have hsame : count owning (s.store p value).ivars o = count owning s.ivars o := by
      apply count_congr
      intro q hq
      have hqp : q ≠ p := by
        rintro rfl
        exact absurd (howning q hq) (by simp [howns])
      exact Function.update_of_ne hqp _ _
    rw [hsame]
    exact h.backed owning howning o

/-- The new reference is counted, and the old one moves to the pool. -/
theorem State.Backed.replace {stored : Option Obj} (h : s.Backed runtime)
    (howns : runtime.owns p = true) :
    (((s.autorelease (s.ivars p)).take stored).store p stored).Backed runtime := by
  intro owning howning o
  have hpool := State.count_autorelease s (s.ivars p) o
  change count owning (Function.update s.ivars p stored) o +
    (s.autorelease (s.ivars p)).pool.count o + s.others o ≤
      s.retainCount o + if stored = some o then 1 else 0
  by_cases hmem : p ∈ owning
  · have hbacked := h owning howning o
    have hupdate := count_update (r := o) s.ivars hmem stored
    omega
  · -- The ivar is not among those that are counted, but it has a reference of its own.
    have hinsert := h (insert p owning) (by
      intro q hq
      rcases Finset.mem_insert.mp hq with rfl | hq
      · exact howns
      · exact howning q hq) o
    rw [count_insert s.ivars hmem] at hinsert
    rw [count_update_of_notMem s.ivars hmem]
    omega

/-- The new value is taken and the old one is given to the pool, also if they are the same. -/
theorem Accounted.replace {stored : Option Obj} (h : Accounted runtime es s)
    (howns : runtime.owns p = true) :
    Accounted runtime
      (es ++ ((s.ivars p).toList.map (.autoreleased p) ++ stored.toList.map (.taken p)))
      (((s.autorelease (s.ivars p)).take stored).store p stored) := by
  refine ⟨?_, ?_, h.backed.replace howns⟩
  · intro q o hq
    have hbalanced := h.balanced q o hq
    have htaken : ((s.ivars p).toList.map (.autoreleased p)).count
        (.taken q o : Event Obj IvarId) = 0 := by simp [List.count_eq_zero]
    have hautoreleased : (stored.toList.map (.taken p)).count
        (.autoreleased q o : Event Obj IvarId) = 0 := by simp [List.count_eq_zero]
    have hheld : ((s.autorelease (s.ivars p)).take stored).held q o = s.held q o := rfl
    simp only [List.count_append, htaken, hautoreleased, count_map_taken, count_map_autoreleased,
      State.held_store, hheld]
    by_cases hpq : p = q
    · subst hpq
      simp only [true_and, if_true]
      unfold State.held at hbalanced
      omega
    · simp only [hpq, false_and, if_false]
      omega
  · intro q o hq
    have hpq : p ≠ q := by
      rintro rfl
      exact absurd howns (by simp [hq])
    have hold := h.unowned q o hq
    simp [hold.1, hold.2, hpq]

theorem Accounted.pop (h : Accounted runtime es s) : Accounted runtime (es ++ []) s.pop := by
  rw [List.append_nil]
  refine ⟨h.balanced, h.unowned, ?_⟩
  intro owning howning o
  have hbacked := h.backed owning howning o
  change count owning s.ivars o + 0 + s.others o ≤ s.retainCount o - s.pool.count o
  omega

theorem Accounted.retain (h : Accounted runtime es s) (q : Obj) :
    Accounted runtime (es ++ []) (s.retain q) := by
  rw [List.append_nil]
  refine ⟨h.balanced, h.unowned, ?_⟩
  intro owning howning o
  have hbacked := h.backed owning howning o
  simp only [State.retain, Function.update_apply]
  split
  · next heq =>
    subst heq
    omega
  · exact hbacked

/-- The references that others give up are not those of the ivars. -/
theorem Accounted.release {q : Obj} (h : Accounted runtime es s) (hs : s.release q = some s') :
    Accounted runtime (es ++ []) s' := by
  obtain ⟨hpos, hs⟩ := Option.ite_none_right_eq_some.mp hs
  obtain rfl := Option.some.inj hs
  rw [List.append_nil]
  refine ⟨h.balanced, h.unowned, ?_⟩
  intro owning howning o
  have hbacked := h.backed owning howning o
  simp only [Function.update_apply]
  split
  · next heq =>
    subst heq
    omega
  · exact hbacked

theorem Accounted.sets (h : Accounted runtime es s) (hsets : Sets runtime s p value reply r)
    (hsafe : ¬ (runtime.owns p = true ∧ value ≠ none ∧ reply = .raised ∧
      (s.ivars p).isSome = true)) : Accounted runtime (es ++ r.events) r.state := by
  cases hsets with
  | refused e howns =>
    rw [List.append_nil]
    exact h
  | assigned howns => exact h.assign howns
  | raised howns hvalue hreply =>
    have hnone : s.ivars p = none := by
      by_contra hne
      exact hsafe ⟨howns, hvalue, hreply, Option.isSome_iff_ne_none.mpr hne⟩
    rw [hnone]
    change Accounted runtime (es ++ []) s
    rw [List.append_nil]
    exact h
  | stored howns htype hmessage => exact h.replace howns

omit [DecidableEq Obj] [DecidableEq IvarId] in
theorem safe_setObjectIvar_iff {obj : Obj} {ivarid : IvarId} :
    Safe runtime s (.setObjectIvar (some obj) ivarid value reply) ↔
      ¬ (runtime.owns (obj, ivarid) = true ∧ value ≠ none ∧ reply = .raised ∧
        (s.ivars (obj, ivarid)).isSome = true) := by
  cases value <;> cases reply <;> simp [Safe, losesReference]

/-- A call is right exactly under the condition. -/
theorem meetsSpec_iff (a : Act Obj IvarId) : MeetsSpec runtime s a ↔ Safe runtime s a := by
  cases a with
  | pop => exact iff_of_true trivial rfl
  | retain => exact iff_of_true trivial rfl
  | release => exact iff_of_true trivial rfl
  | setObjectIvar self ivarid value reply =>
    cases self with
    | none => exact iff_of_true rfl rfl
    | some obj =>
      rw [safe_setObjectIvar_iff]
      exact (setObjectIvar_sets runtime s obj ivarid value reply).callSpec_iff

/-- Under the condition, a step keeps the references accounted for. -/
theorem Accounted.step {a : Act Obj IvarId} (h : Accounted runtime es s)
    (hsafe : Safe runtime s a) (hstep : step runtime s a = some (fs, s')) :
    Accounted runtime (es ++ fs) s' := by
  cases a with
  | pop =>
    obtain ⟨rfl, rfl⟩ := Prod.mk.inj (Option.some.inj hstep)
    exact h.pop
  | retain o =>
    obtain ⟨rfl, rfl⟩ := Prod.mk.inj (Option.some.inj hstep)
    exact h.retain o
  | release o =>
    obtain ⟨t, ht, heq⟩ := Option.map_eq_some_iff.mp hstep
    obtain ⟨rfl, rfl⟩ := Prod.mk.inj heq
    exact h.release ht
  | setObjectIvar self ivarid value reply =>
    obtain ⟨rfl, rfl⟩ := Prod.mk.inj (Option.some.inj hstep)
    cases self with
    | none =>
      rw [setObjectIvar, List.append_nil]
      exact h
    | some obj =>
      exact h.sets (setObjectIvar_sets runtime s obj ivarid value reply)
        (safe_setObjectIvar_iff.mp hsafe)

end Run

/-- In every sequence of calls, between which the pool is popped and others come and go, every
retained or copied ivar owns one reference to what it holds, as long as none that holds a value
is set to an object whose `-copy` or `-retain` raises. Whatever is called next is right if and
only if it is no such call. -/
theorem setObjectIvar_accounted {runtime : Runtime Obj IvarId Signature} {retainCount : Obj → ℕ}
    {es : List (Event Obj IvarId)} {s : State Obj IvarId}
    (hrun : RunWhile (step runtime) (Safe runtime) (.init retainCount) es s) :
    Accounted runtime es s ∧ ∀ a, MeetsSpec runtime s a ↔ Safe runtime s a :=
  ⟨hrun.invariant_trace (Accounted runtime) (fun hsafe h hstep => h.step hsafe hstep)
    (accounted_init runtime retainCount), meetsSpec_iff⟩

/-- Objects with a retained ivar, a copied one, and one that is assigned. -/
def threeIvars : Runtime ℕ IvarType IvarType where
  searchIvar
    | _, .retain => some ⟨8, .retain⟩
    | _, .copy => some ⟨16, .copy⟩
    | _, .assign => some ⟨24, .assign⟩
  typeinfo := id

/-- Object 1 is retained twice by the same ivar. A `-copy` raises while the ivar is nil. -/
theorem accounted_threeIvars : ∃ es s, Accounted threeIvars es s ∧
    (∀ a, MeetsSpec threeIvars s a ↔ Safe threeIvars s a) ∧
    s.ivars (0, .retain) = some 1 ∧ s.retainCount 1 = 2 ∧
    s.ivars (0, .copy) = some 3 ∧ s.ivars (0, .assign) = some 2 := by
  have hrun : RunWhile (step threeIvars) (Safe threeIvars) (.init fun _ => 1) _ _ :=
    runWhile_of_execWhile [.setObjectIvar (some 0) .retain (some 1) (.returned none),
      .setObjectIvar (some 0) .retain (some 1) (.returned none),
      .setObjectIvar (some 0) .copy (some 2) .raised,
      .setObjectIvar (some 0) .copy (some 2) (.returned (some 3)),
      .setObjectIvar (some 0) .assign (some 2) .raised, .pop] rfl
  obtain ⟨haccounted, hnext⟩ := setObjectIvar_accounted hrun
  exact ⟨_, _, haccounted, hnext, rfl, rfl, rfl, rfl⟩

/-- The ivar is the only owner of object 1 when the `-retain` of object 2 raises. The next pop
frees what the ivar still holds. -/
theorem raised_not_accounted :
    (∃ es s, Run (step threeIvars) (.init fun _ => 1) es s ∧
      ¬ MeetsSpec threeIvars s (.setObjectIvar (some 0) .retain (some 2) .raised)) ∧
    ∃ es s, Run (step threeIvars) (.init fun _ => 1) es s ∧
      s.ivars (0, .retain) = some 1 ∧ s.retainCount 1 = 0 ∧ ¬ Accounted threeIvars es s := by
  have hbefore := run_of_exec (step threeIvars) (.init fun _ => 1)
    [.setObjectIvar (some 0) .retain (some 1) (.returned none), .release 1] rfl
  have hafter := run_of_exec (step threeIvars) (.init fun _ => 1)
    [.setObjectIvar (some 0) .retain (some 1) (.returned none), .release 1,
      .setObjectIvar (some 0) .retain (some 2) .raised, .pop] rfl
  refine ⟨⟨_, _, hbefore, ?_⟩, ⟨_, _, hafter, rfl, rfl, ?_⟩⟩
  · rw [meetsSpec_iff]
    decide
  · intro h
    exact absurd (h.balanced (0, .retain) 1 rfl) (by decide)

end MulleObjC.ObjectIvar
