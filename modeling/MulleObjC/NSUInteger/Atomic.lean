import MulleObjC.Library.Linearization

/-!
# Atomic updates of an NSUInteger

`NSUIntegerAtomicUpdate`, `NSUIntegerAtomicOr` and `NSUIntegerAtomicMaskedOr` read the word,
compute a new value and store it by a compare-and-swap, until one succeeds. A value that is
the old one is not stored. Every read and every compare-and-swap is one step of one thread.
-/

namespace MulleObjC.NSUIntegerAtomic

open Machine Linearization

/-- The functions, with their arguments. -/
inductive Op (w : ℕ)
  /-- `NSUIntegerAtomicUpdate` -/
  | update (value : BitVec w)
  /-- `NSUIntegerAtomicOr` -/
  | or (bits : BitVec w)
  /-- `NSUIntegerAtomicMaskedOr` -/
  | maskedOr (mask bits : BitVec w)
  deriving DecidableEq

variable {w : ℕ}

/-- The `value` to store where `old` was read. -/
def Op.value : Op w → BitVec w → BitVec w
  | update value, _ => value
  | or bits, old => old ||| bits
  | maskedOr mask bits, old => (old &&& mask) ||| bits

/-- Where a thread is. -/
inductive Local (w : ℕ)
  | idle
  /-- In front of `old = _mulle_atomic_pointer_read( &ivar->pointer)` -/
  | reading (op : Op w)
  /-- In front of `_mulle_atomic_pointer_cas( &ivar->pointer, value, old)` -/
  | swapping (op : Op w) (old : BitVec w)
  /-- In front of `return( old)` -/
  | returning (op : Op w) (old : BitVec w)
  deriving DecidableEq

/-- The word, and the threads that work on it. A call is named by its thread and the number of
calls that the thread has returned from before. -/
structure State (Thread : Type*) (w : ℕ) where
  pointer : BitVec w
  locals : Thread → Local w
  calls : Thread → ℕ

/-- What a thread does next. -/
inductive Act (Thread : Type*) (w : ℕ)
  | call (t : Thread) (op : Op w)
  | read (t : Thread)
  | cas (t : Thread)
  | ret (t : Thread)

variable {Thread : Type*} [DecidableEq Thread]

namespace State

/-- No thread has called one of the functions. -/
def initial (word : BitVec w) : State Thread w := ⟨word, fun _ => .idle, fun _ => 0⟩

/-- A thread goes on. -/
def goto (s : State Thread w) (t : Thread) (l : Local w) : State Thread w :=
  { s with locals := Function.update s.locals t l }

/-- One step of one thread. -/
def step (s : State Thread w) :
    Act Thread w → Option (List (Event (Thread × ℕ) (Op w) (BitVec w)) × State Thread w)
  | .call t op =>
    match s.locals t with
    | .idle => some ([.invoked (t, s.calls t) op], s.goto t (.reading op))
    | _ => none
  | .read t =>
    match s.locals t with
    | .reading op =>
      -- can't cas with same value
      if s.pointer = op.value s.pointer then some ([], s.goto t (.returning op s.pointer))
      else some ([], s.goto t (.swapping op s.pointer))
    | _ => none
  | .cas t =>
    match s.locals t with
    | .swapping op old =>
      if s.pointer = old then
        some ([], { s.goto t (.returning op old) with pointer := op.value old })
      else some ([], s.goto t (.reading op))
    | _ => none
  | .ret t =>
    match s.locals t with
    | .returning _ old =>
      some ([.returned (t, s.calls t) old],
        { s.goto t .idle with calls := Function.update s.calls t (s.calls t + 1) })
    | _ => none

/-- A call that is through with its loop: it has returned, or is about to. -/
def Completed (s : State Thread w) (history : List (Event (Thread × ℕ) (Op w) (BitVec w)))
    (e : Entry (Thread × ℕ) (Op w) (BitVec w)) : Prop :=
  .invoked e.call e.op ∈ history ∧
    (.returned e.call e.old ∈ history ∨
      e.call.2 = s.calls e.call.1 ∧ s.locals e.call.1 = .returning e.op e.old)

end State

/-- How far the call of a thread is. It takes effect where its value is found in the word, or
stored into it. -/
def Local.status : Local w → Status (Op w) (BitVec w)
  | idle => .fresh
  | reading op | swapping op _ => .pending op
  | returning op old => .effected op old

/-- The calls of the threads are the calls of the machine of linearization points. -/
structure Refines (s : State Thread w)
    (a : Linearization.State (Thread × ℕ) (Op w) (BitVec w)) : Prop where
  value : a.value = s.pointer
  current : ∀ t, a.status (t, s.calls t) = (s.locals t).status
  later : ∀ t n, s.calls t < n → a.status (t, n) = .fresh
  earlier : ∀ t n, n < s.calls t → ∃ op old, a.status (t, n) = .returned op old

section Refinement

variable {s s' : State Thread w} {a : Linearization.State (Thread × ℕ) (Op w) (BitVec w)}

/-- A thread goes on with the call that it is in. -/
theorem Refines.goto (h : Refines s a) (t : Thread) (l : Local w) (word : BitVec w)
    (order : List (Entry (Thread × ℕ) (Op w) (BitVec w))) :
    Refines { s.goto t l with pointer := word }
      ⟨word, Function.update a.status (t, s.calls t) l.status, order⟩ := by
  have hother (t' : Thread) (n : ℕ) (hn : n ≠ s.calls t') : (t', n) ≠ (t, s.calls t) := by
    intro heq
    obtain ⟨rfl, rfl⟩ := Prod.mk.inj heq
    exact hn rfl
  refine ⟨rfl, ?_, ?_, ?_⟩
  · intro t'
    by_cases ht : t' = t
    · subst ht
      simp [State.goto]
    · simp [State.goto, ht, h.current]
  · intro t' n hn
    have hlt : s.calls t' < n := hn
    simp [hother t' n (by omega), h.later t' n hn]
  · intro t' n hn
    have hlt : n < s.calls t' := hn
    simpa [hother t' n (by omega)] using h.earlier t' n hn

/-- A step inside the loop that is not seen. -/
theorem Refines.silent (h : Refines s a) {t : Thread} {l : Local w}
    (hl : l.status = (s.locals t).status) : Refines (s.goto t l) a := by
  refine ⟨h.value, ?_, h.later, h.earlier⟩
  intro t'
  by_cases ht : t' = t
  · subst ht
    simp [State.goto, hl, h.current]
  · simp [State.goto, ht, h.current]

/-- Behind its return a thread may call again. -/
theorem Refines.ret (h : Refines s a) (t : Thread) (op : Op w) (old : BitVec w) :
    Refines { s.goto t .idle with calls := Function.update s.calls t (s.calls t + 1) }
      { a with status := Function.update a.status (t, s.calls t) (.returned op old) } := by
  refine ⟨h.value, ?_, ?_, ?_⟩
  · intro t'
    by_cases ht : t' = t
    · subst ht
      simp [State.goto, h.later, Local.status]
    · simp [State.goto, ht, h.current]
  · intro t' n hn
    by_cases ht : t' = t
    · subst ht
      have hlt : s.calls t' + 1 < n := by simpa using hn
      have hne : n ≠ s.calls t' := by omega
      simp [hne, h.later t' n (by omega)]
    · have hlt : s.calls t' < n := by simpa [ht] using hn
      simp [ht, h.later t' n hlt]
  · intro t' n hn
    by_cases ht : t' = t
    · subst ht
      have hlt : n < s.calls t' + 1 := by simpa using hn
      by_cases hlast : n = s.calls t'
      · exact ⟨op, old, by simp [hlast]⟩
      · simpa [hlast] using h.earlier t' n (by omega)
    · have hlt : n < s.calls t' := by simpa [ht] using hn
      simpa [ht] using h.earlier t' n hlt

omit [DecidableEq Thread] in
theorem Refines.status (h : Refines s a) {t : Thread} {l : Local w} (hl : s.locals t = l) :
    a.status (t, s.calls t) = l.status := by
  rw [h.current, hl]

/-- A pending call takes effect: the value for the word that there is becomes the word. -/
theorem Refines.effect (h : Refines s a) {t : Thread} {op : Op w}
    (hpending : a.status (t, s.calls t) = .pending op) :
    ∃ a', Linearization.step Op.value a (.effect (t, s.calls t)) = some ([], a') ∧
      Refines { s.goto t (.returning op s.pointer) with pointer := op.value s.pointer } a' := by
  refine ⟨_, ?_, h.goto t (.returning op s.pointer) (op.value s.pointer)
    (a.order ++ [⟨(t, s.calls t), op, s.pointer⟩])⟩
  simp only [Linearization.step, hpending, h.value]
  rfl

/-- Every step is a point of the other machine, or is not seen there. -/
theorem Refines.step (h : Refines s a) {act : Act Thread w}
    {es : List (Event (Thread × ℕ) (Op w) (BitVec w))} (hstep : s.step act = some (es, s')) :
    (es = [] ∧ Refines s' a) ∨
      ∃ point a', Linearization.step Op.value a point = some (es, a') ∧ Refines s' a' := by
  cases act with
  | call t op =>
    rw [State.step] at hstep
    split at hstep
    · next hlocal =>
      cases hstep
      have hfresh : a.status (t, s.calls t) = .fresh := h.status hlocal
      refine .inr ⟨.invoke (t, s.calls t) op, _, ?_, h.goto t (.reading op) s.pointer a.order⟩
      simp only [Linearization.step, hfresh, h.value]
      rfl
    · cases hstep
  | read t =>
    rw [State.step] at hstep
    split at hstep
    · next op hlocal =>
      split at hstep
      · next heq =>
        -- The old value is the new one, so the call takes effect without a store.
        obtain ⟨a', hpoint, hrefines⟩ := h.effect (h.status hlocal)
        rw [← heq] at hrefines
        cases hstep
        exact .inr ⟨_, a', hpoint, hrefines⟩
      · cases hstep
        exact .inl ⟨rfl, h.silent (by rw [hlocal]; rfl)⟩
    · cases hstep
  | cas t =>
    rw [State.step] at hstep
    split at hstep
    · next op old hlocal =>
      split at hstep
      · next heq =>
        subst heq
        obtain ⟨a', hpoint, hrefines⟩ := h.effect (h.status hlocal)
        cases hstep
        exact .inr ⟨_, a', hpoint, hrefines⟩
      · cases hstep
        exact .inl ⟨rfl, h.silent (by rw [hlocal]; rfl)⟩
    · cases hstep
  | ret t =>
    rw [State.step] at hstep
    split at hstep
    · next op old hlocal =>
      cases hstep
      have heffected : a.status (t, s.calls t) = .effected op old := h.status hlocal
      refine .inr ⟨.ret (t, s.calls t), _, ?_, h.ret t op old⟩
      simp only [Linearization.step, heffected]
    · cases hstep

omit [DecidableEq Thread] in
/-- The calls in the order are those that are through with their loop. -/
theorem Refines.mem_order_iff (h : Refines s a) {word : BitVec w}
    {history : List (Event (Thread × ℕ) (Op w) (BitVec w))}
    (hexplains : Explains Op.value word history a)
    (e : Entry (Thread × ℕ) (Op w) (BitVec w)) : e ∈ a.order ↔ s.Completed history e := by
  obtain ⟨⟨t, n⟩, op, old⟩ := e
  rw [hexplains.mem_iff, State.Completed, hexplains.invoked_iff, hexplains.returned_iff]
  dsimp only
  rcases Nat.lt_trichotomy n (s.calls t) with hn | rfl | hn
  · obtain ⟨op', old', hreturned⟩ := h.earlier t n hn
    simp [hreturned, Status.effect?, Status.op?, Nat.ne_of_lt hn]
  · rw [h.current]
    cases s.locals t <;> simp [Local.status, Status.effect?, Status.op?]
  · simp [h.later t n hn, Status.effect?, Status.op?]

end Refinement

end MulleObjC.NSUIntegerAtomic
