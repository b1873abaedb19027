import Mathlib.Data.List.Basic
import Mathlib.Data.List.Count

/-!
# Machines with output

A machine takes an action in a state, if it can, and reports events. Runs are
built up step by step. An invariant that every step preserves holds along every
run, and a stock that every step changes by what it reports is the balance of all
reports of a run.
-/

namespace Machine

variable {State Act Event : Type*}

/-- Runs of which every step satisfies a condition on its state and its action, with all
reported events. -/
inductive RunWhile (step : State → Act → Option (List Event × State))
    (cond : State → Act → Prop) : State → List Event → State → Prop
  | refl (s : State) : RunWhile step cond s [] s
  | tail {s s' s'' : State} {es fs : List Event} (a : Act) : RunWhile step cond s es s' →
      cond s' a → step s' a = some (fs, s'') → RunWhile step cond s (es ++ fs) s''

/-- Runs without a condition. -/
abbrev Run (step : State → Act → Option (List Event × State)) : State → List Event → State → Prop :=
  RunWhile step fun _ _ => True

/-- A machine that reports nothing. -/
def silent (step : State → Act → Option State) : State → Act → Option (List Empty × State) :=
  fun s a => (step s a).map ([], ·)

theorem silent_eq_some {step : State → Act → Option State} {s s' : State} {a : Act}
    {es : List Empty} : silent step s a = some (es, s') ↔ step s a = some s' := by
  have hes : es = [] := Subsingleton.elim _ _
  simp [silent, hes]

/-- The machine that labels what it reports by the state it starts from. -/
def labelled {Label : Type*} (label : State → Label)
    (step : State → Act → Option (List Event × State)) (s : State) (a : Act) :
    Option (List (Label × Event) × State) :=
  (step s a).map fun r => (r.1.map (Prod.mk (label s)), r.2)

theorem labelled_eq_some {Label : Type*} {label : State → Label}
    {step : State → Act → Option (List Event × State)} {s s' : State} {a : Act}
    {es : List (Label × Event)} : labelled label step s a = some (es, s') ↔
      ∃ fs, step s a = some (fs, s') ∧ es = fs.map (Prod.mk (label s)) := by
  rw [labelled, Option.map_eq_some_iff]
  constructor
  · rintro ⟨⟨fs, t⟩, hstep, hr⟩
    obtain ⟨rfl, rfl⟩ := Prod.mk.inj hr
    exact ⟨fs, hstep, rfl⟩
  · rintro ⟨fs, hstep, rfl⟩
    exact ⟨(fs, s'), hstep, rfl⟩

variable {step : State → Act → Option (List Event × State)} {cond : State → Act → Prop}

/-- A run continues a first step. -/
theorem RunWhile.head {s s' s'' : State} {es fs : List Event} {a : Act} (hcond : cond s a)
    (hfirst : step s a = some (es, s')) (hrun : RunWhile step cond s' fs s'') :
    RunWhile step cond s (es ++ fs) s'' := by
  induction hrun with
  | refl => simpa using (RunWhile.refl s).tail a hcond hfirst
  | tail b _ hcond' hlast ih =>
    rw [← List.append_assoc]
    exact ih.tail b hcond' hlast

/-- A run goes on with another one. -/
theorem RunWhile.append {s s' s'' : State} {es fs : List Event} (hrun : RunWhile step cond s es s')
    (hrest : RunWhile step cond s' fs s'') : RunWhile step cond s (es ++ fs) s'' := by
  induction hrest with
  | refl => rwa [List.append_nil]
  | tail a _ hcond hlast ih =>
    rw [← List.append_assoc]
    exact ih.tail a hcond hlast

theorem RunWhile.run {s s' : State} {es : List Event} (hrun : RunWhile step cond s es s') :
    Run step s es s' := by
  induction hrun with
  | refl => exact .refl _
  | tail a _ _ hlast ih => exact ih.tail a trivial hlast

/-- The events of a list of actions and the state behind it, if each of them can be taken. -/
def exec (step : State → Act → Option (List Event × State)) (s : State) :
    List Act → Option (List Event × State)
  | [] => some ([], s)
  | a :: as => (step s a).bind fun r => (exec step r.2 as).map fun q => (r.1 ++ q.1, q.2)

theorem runWhile_of_exec {s : State} (as : List Act) {es : List Event} {s' : State}
    (hcond : ∀ s, ∀ a ∈ as, cond s a) (h : exec step s as = some (es, s')) :
    RunWhile step cond s es s' := by
  induction as generalizing s es with
  | nil =>
    obtain ⟨rfl, rfl⟩ := Prod.mk.inj (Option.some.inj h)
    exact .refl s
  | cons a as ih =>
    obtain ⟨⟨es₁, s₁⟩, hfirst, hrest⟩ := Option.bind_eq_some_iff.mp h
    obtain ⟨⟨es₂, s₂⟩, hexec, hevents⟩ := Option.map_eq_some_iff.mp hrest
    obtain ⟨rfl, rfl⟩ := Prod.mk.inj hevents
    have hrun := ih (fun s b hb => hcond s b (List.mem_cons_of_mem a hb)) hexec
    exact RunWhile.head (hcond s a List.mem_cons_self) hfirst hrun

theorem run_of_exec (step : State → Act → Option (List Event × State)) (s : State)
    (as : List Act) {es : List Event} {s' : State} (h : exec step s as = some (es, s')) :
    Run step s es s' :=
  runWhile_of_exec as (fun _ _ _ => trivial) h

/-- As `exec`, if every action meets the condition in its state. -/
def execWhile (step : State → Act → Option (List Event × State)) (cond : State → Act → Prop)
    [∀ s a, Decidable (cond s a)] (s : State) : List Act → Option (List Event × State)
  | [] => some ([], s)
  | a :: as =>
    if cond s a then
      (step s a).bind fun r => (execWhile step cond r.2 as).map fun q => (r.1 ++ q.1, q.2)
    else none

theorem runWhile_of_execWhile [∀ s a, Decidable (cond s a)] {s : State} (as : List Act)
    {es : List Event} {s' : State} (h : execWhile step cond s as = some (es, s')) :
    RunWhile step cond s es s' := by
  induction as generalizing s es with
  | nil =>
    obtain ⟨rfl, rfl⟩ := Prod.mk.inj (Option.some.inj h)
    exact .refl s
  | cons a as ih =>
    obtain ⟨hcond, h⟩ := Option.ite_none_right_eq_some.mp h
    obtain ⟨⟨es₁, s₁⟩, hfirst, hrest⟩ := Option.bind_eq_some_iff.mp h
    obtain ⟨⟨es₂, s₂⟩, hexec, hevents⟩ := Option.map_eq_some_iff.mp hrest
    obtain ⟨rfl, rfl⟩ := Prod.mk.inj hevents
    exact RunWhile.head hcond hfirst (ih hexec)

/-- What every step preserves, under the condition, holds at the end of a run. -/
theorem RunWhile.invariant (Inv : State → Prop)
    (hstep : ∀ {s a es s'}, cond s a → Inv s → step s a = some (es, s') → Inv s')
    {s s' : State} {es : List Event} (hrun : RunWhile step cond s es s') (hinv : Inv s) :
    Inv s' := by
  induction hrun with
  | refl => exact hinv
  | tail a _ hcond hlast ih => exact hstep hcond ih hlast

/-- As `RunWhile.invariant`, for facts about the events reported so far. -/
theorem RunWhile.invariant_trace (Inv : List Event → State → Prop)
    (hstep : ∀ {s a es fs s'}, cond s a → Inv es s → step s a = some (fs, s') →
      Inv (es ++ fs) s')
    {s s' : State} {es : List Event} (hrun : RunWhile step cond s es s') (hinv : Inv [] s) :
    Inv es s' := by
  induction hrun with
  | refl => exact hinv
  | tail a _ hcond hlast ih => exact hstep hcond ih hlast

/-- If every step is a step of another machine, or shows nothing there, so is every run. -/
theorem RunWhile.simulation {State' Act' : Type*}
    {step' : State' → Act' → Option (List Event × State')} (R : State → State' → Prop)
    (hstep : ∀ {s a es s' b}, cond s a → R s b → step s a = some (es, s') →
      (es = [] ∧ R s' b) ∨ ∃ a' b', step' b a' = some (es, b') ∧ R s' b')
    {s s' : State} {es : List Event} {b : State'} (hrun : RunWhile step cond s es s')
    (hb : R s b) : ∃ b', Run step' b es b' ∧ R s' b' := by
  induction hrun with
  | refl => exact ⟨b, .refl b, hb⟩
  | tail a _ hcond hlast ih =>
    obtain ⟨b', hrun', hb'⟩ := ih
    rcases hstep hcond hb' hlast with ⟨rfl, h⟩ | ⟨a', b'', hstep', h⟩
    · rw [List.append_nil]
      exact ⟨b', hrun', h⟩
    · exact ⟨b'', hrun'.tail a' trivial hstep', h⟩

/-- A stock is the balance of the credits and debits reported by a run. -/
theorem RunWhile.balance (Inv : State → Prop) {credit debit : Event → Bool} {stock : State → ℕ}
    (hinv : ∀ {s a es s'}, cond s a → Inv s → step s a = some (es, s') → Inv s')
    (hstep : ∀ {s a es s'}, cond s a → Inv s → step s a = some (es, s') →
      es.countP credit + stock s = es.countP debit + stock s')
    {s s' : State} {es : List Event} (hrun : RunWhile step cond s es s') (hs : Inv s) :
    es.countP credit + stock s = es.countP debit + stock s' := by
  induction hrun with
  | refl => rfl
  | tail a hrun hcond hlast ih =>
    have h := hstep hcond (hrun.invariant Inv hinv hs) hlast
    rw [List.countP_append, List.countP_append]
    omega

end Machine
