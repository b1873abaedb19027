import Mathlib.Data.List.Nodup
import MulleObjC.Library.Machine

/-!
# Linearizability of operations that return the old value

Calls take effect one at a time, each at some point between its invocation and its return, and
return the value they find. Whatever refines the machine of such points is linearizable, with
the order of the points.
-/

namespace Linearization

open Machine

/-- What the callers see. -/
inductive Event (Call Op Val : Type*)
  | invoked (c : Call) (op : Op)
  | returned (c : Call) (result : Val)
  deriving DecidableEq

/-- A call in a sequential order, with the value that it finds. -/
@[ext]
structure Entry (Call Op Val : Type*) where
  call : Call
  op : Op
  old : Val
  deriving DecidableEq

/-- How far a call is. -/
inductive Status (Op Val : Type*)
  /-- It has not been invoked. -/
  | fresh
  | pending (op : Op)
  /-- It has taken effect and has not returned. -/
  | effected (op : Op) (old : Val)
  | returned (op : Op) (old : Val)

variable {Call Op Val : Type*}

namespace Status

/-- The operation of a call that has been invoked. -/
def op? : Status Op Val → Option Op
  | fresh => none
  | pending op | effected op _ | returned op _ => some op

/-- What a call that has taken effect has found. -/
def effect? : Status Op Val → Option (Op × Val)
  | fresh | pending _ => none
  | effected op old | returned op old => some (op, old)

end Status

/-- One call after the other, each of which finds what those before it have left. -/
def Sequential (apply : Op → Val → Val) : Val → List (Entry Call Op Val) → Val → Prop
  | v, [], v' => v = v'
  | v, e :: order, v' => e.old = v ∧ Sequential apply (apply e.op v) order v'

/-- A call has returned before another one is invoked. -/
def Precedes (history : List (Event Call Op Val)) (c d : Call) : Prop :=
  ∃ result op, List.Sublist [.returned c result, .invoked d op] history

section Sequential

variable {apply : Op → Val → Val} {v u v' : Val} {l l' : List (Entry Call Op Val)}

theorem sequential_append : Sequential apply v (l ++ l') v' ↔
    ∃ u, Sequential apply v l u ∧ Sequential apply u l' v' := by
  induction l generalizing v with
  | nil =>
    constructor
    · intro h
      exact ⟨v, rfl, h⟩
    · rintro ⟨u, rfl, h⟩
      exact h
  | cons e l ih =>
    rw [List.cons_append, Sequential, ih]
    constructor
    · rintro ⟨hold, u, hl, hl'⟩
      exact ⟨u, ⟨hold, hl⟩, hl'⟩
    · rintro ⟨u, ⟨hold, hl⟩, hl'⟩
      exact ⟨hold, u, hl, hl'⟩

/-- What every operation of the order keeps holds in the end. -/
theorem Sequential.invariant (P : Val → Prop) (h : Sequential apply v l v')
    (hstep : ∀ e ∈ l, ∀ u, P u → P (apply e.op u)) (hv : P v) : P v' := by
  induction l generalizing v with
  | nil =>
    obtain rfl : v = v' := h
    exact hv
  | cons e l ih =>
    apply ih h.2 fun f hf => hstep f (List.mem_cons_of_mem e hf)
    exact hstep e List.mem_cons_self v hv

end Sequential

section Precedes

variable {history : List (Event Call Op Val)} {event : Event Call Op Val} {c d : Call}

/-- A new event only ends a precedence if it is an invocation. -/
theorem precedes_append_singleton (h : Precedes (history ++ [event]) c d) :
    Precedes history c d ∨ ∃ op, event = .invoked d op := by
  obtain ⟨result, op, h⟩ := h
  obtain ⟨front, back, hlist, hfront, hback⟩ := List.sublist_append_iff.mp h
  rcases List.sublist_singleton.mp hback with rfl | rfl
  · rw [List.append_nil] at hlist
    exact .inl ⟨result, op, hlist ▸ hfront⟩
  · have hlast := congrArg List.getLast? hlist
    simp only [List.getLast?_append, List.getLast?_singleton, Option.some_or] at hlast
    exact .inr ⟨op, (Option.some.inj hlast).symm⟩

theorem Precedes.exists_returned (h : Precedes history c d) :
    ∃ result, .returned c result ∈ history := by
  obtain ⟨result, op, h⟩ := h
  exact ⟨result, h.subset List.mem_cons_self⟩

end Precedes

/-- The value, the calls, and the order in which they have taken effect. -/
structure State (Call Op Val : Type*) where
  value : Val
  status : Call → Status Op Val
  order : List (Entry Call Op Val)

/-- What a call does next. -/
inductive Act (Call Op : Type*)
  | invoke (c : Call) (op : Op)
  | effect (c : Call)
  | ret (c : Call)

/-- Nothing has been invoked. -/
def State.initial (v : Val) : State Call Op Val := ⟨v, fun _ => .fresh, []⟩

/-- What a history tells of a state. -/
structure Explains (apply : Op → Val → Val) (start : Val) (history : List (Event Call Op Val))
    (s : State Call Op Val) : Prop where
  invoked_iff : ∀ c op, .invoked c op ∈ history ↔ (s.status c).op? = some op
  returned_iff : ∀ c result, .returned c result ∈ history ↔
    ∃ op, s.status c = .returned op result
  mem_iff : ∀ e, e ∈ s.order ↔ (s.status e.call).effect? = some (e.op, e.old)
  nodup : (s.order.map Entry.call).Nodup
  realTime : ∀ e ∈ s.order, ∀ f ∈ s.order, Precedes history e.call f.call →
    List.Sublist [e, f] s.order
  sequential : Sequential apply start s.order s.value

section Explains

variable {apply : Op → Val → Val} {start : Val} {history : List (Event Call Op Val)}
  {s : State Call Op Val} {c : Call} {op : Op} {old : Val}

/-- A call that is not in the order has not returned. -/
theorem Explains.not_returned (h : Explains apply start history s)
    (hc : (s.status c).effect? = none) (result : Val) : .returned c result ∉ history := by
  intro hmem
  obtain ⟨op, hop⟩ := (h.returned_iff c result).mp hmem
  rw [hop] at hc
  cases hc

theorem Explains.call_ne (h : Explains apply start history s)
    (hc : (s.status c).effect? = none) {e : Entry Call Op Val} (he : e ∈ s.order) :
    e.call ≠ c := by
  rintro rfl
  have heffect := (h.mem_iff e).mp he
  rw [hc] at heffect
  cases heffect

end Explains

variable [DecidableEq Call]

/-- One step of one call. -/
def step (apply : Op → Val → Val) (s : State Call Op Val) :
    Act Call Op → Option (List (Event Call Op Val) × State Call Op Val)
  | .invoke c op =>
    match s.status c with
    | .fresh =>
      some ([.invoked c op], { s with status := Function.update s.status c (.pending op) })
    | _ => none
  | .effect c =>
    match s.status c with
    | .pending op =>
      some ([], ⟨apply op s.value, Function.update s.status c (.effected op s.value),
        s.order ++ [⟨c, op, s.value⟩]⟩)
    | _ => none
  | .ret c =>
    match s.status c with
    | .effected op old =>
      some ([.returned c old], { s with status := Function.update s.status c (.returned op old) })
    | _ => none

section Step

variable {apply : Op → Val → Val} {start : Val} {history : List (Event Call Op Val)}
  {s : State Call Op Val} {c : Call} {op : Op} {old : Val}

theorem Explains.invoke (h : Explains apply start history s) (hc : s.status c = .fresh) :
    Explains apply start (history ++ [.invoked c op])
      { s with status := Function.update s.status c (.pending op) } := by
  have heffect : (s.status c).effect? = none := by rw [hc]; rfl
  refine ⟨?_, ?_, ?_, h.nodup, ?_, h.sequential⟩
  · intro d op'
    by_cases hd : d = c
    · subst hd
      have hnone : .invoked d op' ∉ history := by
        rw [h.invoked_iff, hc]
        simp [Status.op?]
      simp [hnone, Status.op?, eq_comm]
    · simp [h.invoked_iff, hd]
  · intro d result
    by_cases hd : d = c
    · subst hd
      simp [h.not_returned heffect]
    · simp [h.returned_iff, hd]
  · intro e
    by_cases he : e.call = c
    · have hnot : e ∉ s.order := fun hin => h.call_ne heffect hin he
      simp [hnot, he, Status.effect?]
    · simp [h.mem_iff, he]
  · intro e he f hf hprecedes
    rcases precedes_append_singleton hprecedes with hold | ⟨op', hop'⟩
    · exact h.realTime e he f hf hold
    · exact absurd (Event.invoked.inj hop').1.symm (h.call_ne heffect hf)

theorem Explains.effect (h : Explains apply start history s) (hc : s.status c = .pending op) :
    Explains apply start (history ++ []) ⟨apply op s.value,
      Function.update s.status c (.effected op s.value), s.order ++ [⟨c, op, s.value⟩]⟩ := by
  have heffect : (s.status c).effect? = none := by rw [hc]; rfl
  rw [List.append_nil]
  refine ⟨?_, ?_, ?_, ?_, ?_, ?_⟩
  · intro d op'
    by_cases hd : d = c
    · subst hd
      simp [h.invoked_iff, hc, Status.op?]
    · simp [h.invoked_iff, hd]
  · intro d result
    by_cases hd : d = c
    · subst hd
      simp [h.not_returned heffect]
    · simp [h.returned_iff, hd]
  · intro e
    by_cases he : e.call = c
    · have hnot : e ∉ s.order := fun hin => h.call_ne heffect hin he
      simp [hnot, he, Status.effect?, Entry.ext_iff, eq_comm]
    · have hne : e ≠ ⟨c, op, s.value⟩ := fun heq => he (congrArg Entry.call heq)
      simp [h.mem_iff, he, hne]
  · rw [List.map_append, List.nodup_append]
    refine ⟨h.nodup, List.nodup_singleton _, ?_⟩
    intro d hd e he
    obtain ⟨f, hf, rfl⟩ := List.mem_map.mp hd
    rw [List.mem_singleton.mp he]
    exact h.call_ne heffect hf
  · intro e he f hf hprecedes
    obtain ⟨result, hreturned⟩ := hprecedes.exists_returned
    -- A call that takes effect now has not returned, so it comes behind the others only.
    have heold : e ∈ s.order := by
      rcases List.mem_append.mp he with heold | henew
      · exact heold
      · rw [List.mem_singleton.mp henew] at hreturned
        exact absurd hreturned (h.not_returned heffect result)
    rcases List.mem_append.mp hf with hfold | hfnew
    · exact (h.realTime e heold f hfold hprecedes).trans (List.sublist_append_left _ _)
    · rw [List.mem_singleton.mp hfnew]
      exact List.Sublist.append (List.singleton_sublist.mpr heold) (List.Sublist.refl _)
  · exact sequential_append.mpr ⟨s.value, h.sequential, rfl, rfl⟩

theorem Explains.ret (h : Explains apply start history s) (hc : s.status c = .effected op old) :
    Explains apply start (history ++ [.returned c old])
      { s with status := Function.update s.status c (.returned op old) } := by
  refine ⟨?_, ?_, ?_, h.nodup, ?_, h.sequential⟩
  · intro d op'
    by_cases hd : d = c
    · subst hd
      simp [h.invoked_iff, hc, Status.op?]
    · simp [h.invoked_iff, hd]
  · intro d result
    by_cases hd : d = c
    · subst hd
      have hnone : .returned d result ∉ history := by
        rw [h.returned_iff, hc]
        simp
      simp [hnone, eq_comm]
    · simp [h.returned_iff, hd]
  · intro e
    by_cases he : e.call = c
    · have hold : e ∈ s.order ↔ some (op, old) = some (e.op, e.old) := by
        rw [h.mem_iff, he, hc]
        rfl
      simp [hold, he, Status.effect?]
    · simp [h.mem_iff, he]
  · intro e he f hf hprecedes
    rcases precedes_append_singleton hprecedes with hold | ⟨op', hop'⟩
    · exact h.realTime e he f hf hold
    · cases hop'

/-- What one step preserves. -/
theorem Explains.step {act : Act Call Op} {es : List (Event Call Op Val)}
    {s' : State Call Op Val} (h : Explains apply start history s)
    (hstep : step apply s act = some (es, s')) : Explains apply start (history ++ es) s' := by
  cases act with
  | invoke c op =>
    rw [Linearization.step] at hstep
    split at hstep
    · next hc =>
      cases hstep
      exact h.invoke hc
    · cases hstep
  | effect c =>
    rw [Linearization.step] at hstep
    split at hstep
    · next hc =>
      cases hstep
      exact h.effect hc
    · cases hstep
  | ret c =>
    rw [Linearization.step] at hstep
    split at hstep
    · next hc =>
      cases hstep
      exact h.ret hc
    · cases hstep

end Step

end Linearization
