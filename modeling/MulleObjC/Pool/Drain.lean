import MulleObjC.Pool.Completeness

/-!
# Popping pool by pool

`popAutoreleasePool` pops down to a pool in one call. `-dealloc` of a pool pops the current pool, call
by call, until that was the receiver. When the configuration of a thread is reset or done, the current
pool is popped until there is none.
-/

namespace MulleObjC.Pool

open Machine

variable {Obj : Type*} [DecidableEq Obj] {isConstant : Obj → Bool} {s s' s'' t t' : State Obj}
  {act : Act Obj} {es fs : List (Event Obj)}

section Above

variable {frame : Frame Obj} {inner outer rest : List (Frame Obj)}

/-- What a pool function does next does not depend on its callers. -/
theorem runFrame_above {dealloc : Bool}
    (h : s.runFrame dealloc rest frame = some (es, s')) :
    ∃ top, s'.frames = top ++ rest ∧ ∀ frames rest',
      ({ s with frames := frames } : State Obj).runFrame dealloc rest' frame =
        some (es, { s' with frames := top ++ rest' }) := by
  cases frame with
  | dealloc floor => cases h
  | releaseAll pool popTo =>
    cases hstorage : storageOf pool s.config.pools with
    | cons array previous =>
      simp only [State.runFrame, hstorage] at h
      obtain ⟨rfl, rfl⟩ := Prod.mk.inj (Option.some.inj h)
      exact ⟨[_, _], rfl, fun frames rest' => by simp only [State.runFrame, hstorage]; rfl⟩
    | nil =>
      cases popTo with
      | none =>
        simp only [State.runFrame, hstorage] at h
        obtain ⟨rfl, rfl⟩ := Prod.mk.inj (Option.some.inj h)
        exact ⟨[], rfl, fun frames rest' => by simp only [State.runFrame, hstorage]; rfl⟩
      | some aPool =>
        simp only [State.runFrame, hstorage, State.popTail] at h
        by_cases hpool : pool = aPool
        · rw [if_pos hpool] at h
          obtain ⟨rfl, rfl⟩ := Prod.mk.inj (Option.some.inj h)
          exact ⟨[], rfl, fun frames rest' => by
            simp only [State.runFrame, hstorage, State.popTail, if_pos hpool]; rfl⟩
        · rw [if_neg hpool] at h
          cases hafter : after NSAutoreleasePool.address pool s.config.pools with
          | nil => simp [hafter] at h
          | cons tail owner =>
            simp only [hafter] at h
            obtain ⟨rfl, rfl⟩ := Prod.mk.inj (Option.some.inj h)
            exact ⟨[_], rfl, fun frames rest' => by
              simp only [State.runFrame, hstorage, State.popTail, if_neg hpool, hafter]; rfl⟩
  | releaseAndFree pool objects q =>
    rcases objects with - | ⟨- | opfer, objects⟩
    · cases q with
      | nil =>
        obtain ⟨rfl, rfl⟩ := Prod.mk.inj (Option.some.inj h)
        exact ⟨[], rfl, fun _ _ => rfl⟩
      | cons array previous =>
        obtain ⟨rfl, rfl⟩ := Prod.mk.inj (Option.some.inj h)
        exact ⟨[_], rfl, fun _ _ => rfl⟩
    · obtain ⟨rfl, rfl⟩ := Prod.mk.inj (Option.some.inj h)
      exact ⟨[_], rfl, fun _ _ => rfl⟩
    · obtain ⟨rfl, rfl⟩ := Prod.mk.inj (Option.some.inj h)
      cases dealloc with
      | false => exact ⟨[_], rfl, fun _ _ => rfl⟩
      | true => exact ⟨[_, _], rfl, fun _ _ => rfl⟩
  | releaseObjects ps owners pool below q =>
    cases q with
    | zero =>
      cases below with
      | zero =>
        obtain ⟨rfl, rfl⟩ := Prod.mk.inj (Option.some.inj h)
        exact ⟨_, rfl, fun _ _ => rfl⟩
      | succ below =>
        obtain ⟨rfl, rfl⟩ := Prod.mk.inj (Option.some.inj h)
        exact ⟨[_], rfl, fun _ _ => rfl⟩
    | succ q =>
      cases hslot : ((storageOf pool s.config.pools).pageAt below).bind (·.objects[q]?) with
      | none =>
        simp only [State.runFrame, hslot] at h
        obtain ⟨rfl, rfl⟩ := Prod.mk.inj (Option.some.inj h)
        exact ⟨[_], rfl, fun _ _ => by simp only [State.runFrame, hslot]; rfl⟩
      | some slot =>
        cases slot with
        | none =>
          simp only [State.runFrame, hslot] at h
          obtain ⟨rfl, rfl⟩ := Prod.mk.inj (Option.some.inj h)
          exact ⟨[_], rfl, fun _ _ => by simp only [State.runFrame, hslot]; rfl⟩
        | some obj =>
          by_cases hobj : obj ∈ ps
          · simp only [State.runFrame, hslot, if_pos hobj] at h
            obtain ⟨rfl, rfl⟩ := Prod.mk.inj (Option.some.inj h)
            cases dealloc with
            | false =>
              exact ⟨[_], rfl, fun _ _ => by simp only [State.runFrame, hslot, if_pos hobj]; rfl⟩
            | true =>
              exact ⟨[_, _], rfl, fun _ _ => by simp only [State.runFrame, hslot, if_pos hobj]; rfl⟩
          · simp only [State.runFrame, hslot, if_neg hobj] at h
            obtain ⟨rfl, rfl⟩ := Prod.mk.inj (Option.some.inj h)
            exact ⟨[_], rfl, fun _ _ => by simp only [State.runFrame, hslot, if_neg hobj]; rfl⟩

/-- What the innermost frame does next does not depend on its callers. -/
theorem step_above (h : s.step isConstant act = some (es, s')) (hframes : s.frames = frame :: rest) :
    ∃ top, s'.frames = top ++ rest ∧ ∀ rest',
      ({ s with frames := frame :: rest' } : State Obj).step isConstant act =
        some (es, { s' with frames := top ++ rest' }) := by
  cases frame with
  | dealloc floor =>
    cases act with
    | push | autorelease | autoreleaseObjects =>
      simp only [State.step, hframes, State.call] at h
      obtain ⟨rfl, rfl⟩ := Prod.mk.inj (Option.some.inj h)
      exact ⟨[_], rfl, fun _ => rfl⟩
    | pop aPool =>
      simp only [State.step, hframes, State.call] at h
      cases hpools : s.config.pools with
      | nil => simp [hpools] at h
      | cons tail owner =>
        simp only [hpools] at h
        split at h
        case isFalse => cases h
        case isTrue hmem =>
          obtain ⟨rfl, rfl⟩ := Prod.mk.inj (Option.some.inj h)
          exact ⟨[_, _], rfl, fun _ => by
            simp only [State.step, State.call, hpools, if_pos hmem]; rfl⟩
    | leave =>
      simp only [State.step, hframes] at h
      split at h
      case isFalse => cases h
      case isTrue hlength =>
        obtain ⟨rfl, rfl⟩ := Prod.mk.inj (Option.some.inj h)
        exact ⟨[], rfl, fun _ => by simp only [State.step, if_pos hlength]; rfl⟩
    | _ =>
      simp only [State.step, hframes] at h
      cases h
  | _ =>
    cases act with
    | run dealloc =>
      simp only [State.step, hframes] at h
      obtain ⟨top, hframes', hrun⟩ := runFrame_above h
      exact ⟨top, hframes', fun rest' => hrun _ rest'⟩
    | _ => simp [State.step, hframes] at h

/-- The calls that a `-dealloc` makes besides those of `State.step`. -/
def Act.isNested : Act Obj → Bool
  | .releasePoolObjects _ _ | .releaseAllPoolObjects _ => true
  | _ => false

theorem stepNested_eq_step (h : act.isNested = false ∨ ∀ floor, frame ≠ .dealloc floor)
    (hframes : s.frames = frame :: rest) : s.stepNested isConstant act = s.step isConstant act := by
  unfold State.stepNested
  split
  next hdealloc =>
    obtain ⟨rfl, -⟩ := List.cons.inj (hframes.symm.trans hdealloc)
    rcases h with hact | hnot
    · cases hact
    · exact absurd rfl (hnot _)
  next hdealloc =>
    obtain ⟨rfl, -⟩ := List.cons.inj (hframes.symm.trans hdealloc)
    rcases h with hact | hnot
    · cases hact
    · exact absurd rfl (hnot _)
  next => rfl

/-- A call by a `-dealloc` above the call of `popAutoreleasePool`. -/
theorem dealloc_above_pop {pool aPool floor : ℕ} (hact : act.isNested = true)
    (h : s.stepNested isConstant act = some (es, s'))
    (hframes : s.frames = .dealloc floor :: inner ++ .releaseAll pool (some aPool) :: outer) :
    ∃ inner', s'.frames = inner' ++ .releaseAll pool (some aPool) :: outer ∧ ∀ a,
      ({ s with frames := .dealloc floor :: inner ++ .releaseAll pool (some a) :: outer } :
          State Obj).stepNested isConstant act =
        some (es, { s' with frames := inner' ++ .releaseAll pool (some a) :: outer }) := by
  cases act with
  | releasePoolObjects ps owners =>
    simp only [State.stepNested, hframes, List.cons_append] at h
    obtain ⟨rfl, rfl⟩ := Prod.mk.inj (Option.some.inj h)
    refine ⟨releaseObjectsFrame ps owners s.config.pools ++ .dealloc floor :: inner, by simp,
      fun a => ?_⟩
    simp [State.stepNested]
  | releaseAllPoolObjects aPool' =>
    simp only [State.stepNested, hframes, List.cons_append] at h
    split at h
    case isFalse => cases h
    case isTrue hguard =>
      obtain ⟨rfl, rfl⟩ := Prod.mk.inj (Option.some.inj h)
      refine ⟨.releaseAll aPool' none :: .dealloc floor :: inner, by simp, fun a => ?_⟩
      have hguard' : aPool' ∈ addresses s.config.pools ∧
          (Frame.dealloc floor :: (inner ++ .releaseAll pool (some a) :: outer)).all
            (fun frame => !frame.reads aPool') = true := by
        simpa [Frame.reads] using hguard
      simp only [State.stepNested, List.cons_append, if_pos hguard']
  | _ => cases hact

/-- A step above the call of `popAutoreleasePool` does not depend on what it pops to, unless the
current pool is empty and popped. -/
theorem step_above_pop {pool aPool : ℕ} (h : s.stepNested isConstant act = some (es, s'))
    (hframes : s.frames = inner ++ .releaseAll pool (some aPool) :: outer) :
    (∃ inner', s'.frames = inner' ++ .releaseAll pool (some aPool) :: outer ∧ ∀ a,
      ({ s with frames := inner ++ .releaseAll pool (some a) :: outer } : State Obj).stepNested
          isConstant act =
        some (es, { s' with frames := inner' ++ .releaseAll pool (some a) :: outer })) ∨
      (inner = [] ∧ storageOf pool s.config.pools = [] ∧ (∃ dealloc, act = .run dealloc) ∧
        s.popTail pool aPool outer = some (es, s')) := by
  cases inner with
  | cons frame inner =>
    left
    by_cases hplain : act.isNested = false ∨ ∀ floor, frame ≠ .dealloc floor
    · rw [stepNested_eq_step hplain hframes] at h
      obtain ⟨top, hframes', hstep⟩ := step_above h hframes
      refine ⟨top ++ inner, hframes'.trans (List.append_assoc _ _ _).symm, fun a => ?_⟩
      rw [List.append_assoc, ← hstep]
      exact stepNested_eq_step hplain rfl
    · obtain ⟨hact, hdealloc⟩ := not_or.mp hplain
      obtain ⟨floor, hfloor⟩ := not_forall.mp hdealloc
      obtain rfl := not_not.mp hfloor
      exact dealloc_above_pop (eq_true_of_ne_false hact) h hframes
  | nil =>
    rw [List.nil_append] at hframes
    rw [stepNested_eq_step (.inr fun floor => by simp) hframes] at h
    cases act with
    | run dealloc =>
      simp only [State.step, hframes, State.runFrame] at h
      cases hstorage : storageOf pool s.config.pools with
      | cons array previous =>
        left
        simp only [hstorage] at h
        obtain ⟨rfl, rfl⟩ := Prod.mk.inj (Option.some.inj h)
        refine ⟨[.releaseAndFree pool array.objects.reverse previous], rfl, fun a => ?_⟩
        simp only [State.stepNested, State.step, List.nil_append, State.runFrame, hstorage]
        rfl
      | nil =>
        simp only [hstorage] at h
        exact .inr ⟨rfl, rfl, ⟨dealloc, rfl⟩, h⟩
    | _ => simp [State.step, hframes] at h

end Above

/-- `popAutoreleasePool( config, aPool)` is called, and returns. -/
def State.Popped (isConstant : Obj → Bool) (s : State Obj) (aPool : ℕ) (es : List (Event Obj))
    (s' : State Obj) : Prop :=
  ∃ s₁, s.stepNested isConstant (.pop aPool) = some ([], s₁) ∧
    RunWhile (State.stepNested isConstant) (fun t _ => t.frames ≠ s.frames) s₁ es s' ∧
    s'.frames = s.frames

/-- `while( pool = config->tail)` of `-dealloc`, sent to the pool `self`. -/
inductive State.Drained (isConstant : Obj → Bool) (self : ℕ) :
    State Obj → List (Event Obj) → State Obj → Prop
  | last {s s' : State Obj} {es : List (Event Obj)} {pool : NSAutoreleasePool Obj}
      {owner : List (NSAutoreleasePool Obj)} (hpools : s.config.pools = pool :: owner)
      (hpop : s.Popped isConstant pool.address es s') (hself : pool.address = self) :
      Drained isConstant self s es s'
  | next {s s' s'' : State Obj} {es fs : List (Event Obj)} {pool : NSAutoreleasePool Obj}
      {owner : List (NSAutoreleasePool Obj)} (hpools : s.config.pools = pool :: owner)
      (hpop : s.Popped isConstant pool.address es s') (hother : pool.address ≠ self)
      (hrest : Drained isConstant self s' fs s'') :
      Drained isConstant self s (es ++ fs) s''

/-- The call of `popAutoreleasePool`, in front of its loop. -/
def State.popping (s : State Obj) (pool aPool : ℕ) : State Obj :=
  { s with frames := .releaseAll pool (some aPool) :: s.frames }

section Pop

variable {pool aPool : ℕ} {tail : NSAutoreleasePool Obj} {owner : List (NSAutoreleasePool Obj)}

omit [DecidableEq Obj] in
theorem append_cons_ne (inner : List (Frame Obj)) (frame : Frame Obj) (outer : List (Frame Obj)) :
    inner ++ frame :: outer ≠ outer := by
  intro h
  have hlength := congrArg List.length h
  simp only [List.length_append, List.length_cons] at hlength
  omega

/-- A pool is popped to that is above the floor of the code. -/
def State.MayPop (s : State Obj) (aPool : ℕ) : Prop :=
  ∃ floor, s.Code floor ∧
    aPool ∈ (addresses s.config.pools).take ((addresses s.config.pools).length - floor)

/-- The call starts on the current pool. -/
theorem stepNested_pop_iff {s₁ : State Obj} :
    s.stepNested isConstant (.pop aPool) = some (es, s₁) ↔
      s.MayPop aPool ∧ ∃ tail owner, s.config.pools = tail :: owner ∧ es = [] ∧
        s₁ = s.popping tail.address aPool := by
  have hstep : s.stepNested isConstant (.pop aPool) = s.step isConstant (.pop aPool) := by
    cases hframes : s.frames with
    | nil => simp only [State.stepNested, hframes]
    | cons frame rest => exact stepNested_eq_step (.inl rfl) hframes
  rw [hstep]
  constructor
  · intro h
    cases takes_of_step h with
    | @call floor hcode _ _ _ h =>
      rw [State.call, ← length_addresses] at h
      cases hpools : s.config.pools with
      | nil => simp [hpools] at h
      | cons tail owner =>
        simp only [hpools] at h
        split at h
        case isFalse => cases h
        case isTrue hmem =>
          obtain ⟨rfl, rfl⟩ := Prod.mk.inj (Option.some.inj h)
          rw [← hpools] at hmem
          exact ⟨⟨floor, hcode, hmem⟩, tail, owner, rfl, rfl, rfl⟩
  · rintro ⟨⟨floor, hcode, hmem⟩, tail, owner, hpools, rfl, rfl⟩
    apply step_of_takes
    apply State.Takes.call hcode
    rw [hpools] at hmem
    rw [State.call, ← length_addresses]
    simp only [hpools, if_pos hmem]
    rfl

/-- The part of a pop behind its first pool is a pop by itself. -/
theorem run_popping_split (hne : pool ≠ aPool)
    (hrun : RunWhile (State.stepNested isConstant) (fun t _ => t.frames ≠ s.frames)
      (s.popping pool aPool) es t) (hreturned : t.frames = s.frames) :
    ∃ es₁ es₂ u tail owner, es = es₁ ++ es₂ ∧
      RunWhile (State.stepNested isConstant) (fun t _ => t.frames ≠ s.frames)
        (s.popping pool pool) es₁ u ∧
      u.frames = s.frames ∧ u.config.pools = tail :: owner ∧
      RunWhile (State.stepNested isConstant) (fun t _ => t.frames ≠ s.frames)
        (u.popping tail.address aPool) es₂ t := by
  have hinv := hrun.invariant_trace (fun es t =>
    (∃ inner, t.frames = inner ++ .releaseAll pool (some aPool) :: s.frames ∧
      RunWhile (State.stepNested isConstant) (fun t _ => t.frames ≠ s.frames) (s.popping pool pool) es
        { t with frames := inner ++ .releaseAll pool (some pool) :: s.frames }) ∨
    ∃ es₁ es₂ u tail owner, es = es₁ ++ es₂ ∧
      RunWhile (State.stepNested isConstant) (fun t _ => t.frames ≠ s.frames)
        (s.popping pool pool) es₁ u ∧
      u.frames = s.frames ∧ u.config.pools = tail :: owner ∧
      RunWhile (State.stepNested isConstant) (fun t _ => t.frames ≠ s.frames)
        (u.popping tail.address aPool) es₂ t) ?_ (.inl ⟨[], rfl, .refl _⟩)
  · rcases hinv with ⟨inner, hframes, -⟩ | h
    · exact absurd (hframes.symm.trans hreturned) (append_cons_ne _ _ _)
    · exact h
  intro t act es fs t' hrunning hinv hstep
  rcases hinv with ⟨inner, hframes, hfirst⟩ | ⟨es₁, es₂, u, tail, owner, rfl, hfirst, hu, hpools, hrest⟩
  · rcases step_above_pop hstep hframes with
      ⟨inner', hframes', hother⟩ | ⟨rfl, hstorage, ⟨dealloc, rfl⟩, hpop⟩
    · exact .inl ⟨inner', hframes', hfirst.tail act (append_cons_ne _ _ _) (hother pool)⟩
    · right
      rw [State.popTail, if_neg hne] at hpop
      cases hafter : after NSAutoreleasePool.address pool t.config.pools with
      | nil => simp [hafter] at hpop
      | cons tail owner =>
        simp only [hafter] at hpop
        obtain ⟨rfl, rfl⟩ := Prod.mk.inj (Option.some.inj hpop)
        let u : State Obj := { t with config.pools := tail :: owner, frames := s.frames }
        refine ⟨es ++ [.popped pool], [], u, tail, owner, (List.append_nil _).symm, ?_, rfl, rfl,
          .refl _⟩
        apply hfirst.tail (.run dealloc) (append_cons_ne _ _ _)
        simp only [State.stepNested, State.step, List.nil_append, State.runFrame, hstorage,
          State.popTail, if_true, hafter, u]
  · exact .inr ⟨es₁, es₂ ++ fs, u, tail, owner, List.append_assoc _ _ _, hfirst, hu, hpools,
      hrest.tail act hrunning hstep⟩

/-- A pop of the current pool goes on to the pools below, if it is asked for one of them. -/
theorem run_popping_join (hne : pool ≠ aPool)
    (hrun : RunWhile (State.stepNested isConstant) (fun t _ => t.frames ≠ s.frames)
      (s.popping pool pool) es t) (hreturned : t.frames = s.frames)
    (hpools : t.config.pools = tail :: owner) :
    RunWhile (State.stepNested isConstant) (fun t _ => t.frames ≠ s.frames)
      (s.popping pool aPool) es (t.popping tail.address aPool) := by
  have hinv := hrun.invariant_trace (fun es t =>
    (∃ inner, t.frames = inner ++ .releaseAll pool (some pool) :: s.frames ∧
      RunWhile (State.stepNested isConstant) (fun t _ => t.frames ≠ s.frames) (s.popping pool aPool) es
        { t with frames := inner ++ .releaseAll pool (some aPool) :: s.frames }) ∨
    (t.frames = s.frames ∧ ∀ tail owner, t.config.pools = tail :: owner →
      RunWhile (State.stepNested isConstant) (fun t _ => t.frames ≠ s.frames) (s.popping pool aPool) es
        (t.popping tail.address aPool))) ?_ (.inl ⟨[], rfl, .refl _⟩)
  · rcases hinv with ⟨inner, hframes, -⟩ | ⟨-, h⟩
    · exact absurd (hframes.symm.trans hreturned) (append_cons_ne _ _ _)
    · exact h tail owner hpools
  intro t act es fs t' hrunning hinv hstep
  rcases hinv with ⟨inner, hframes, hfirst⟩ | ⟨hframes, -⟩
  · rcases step_above_pop hstep hframes with
      ⟨inner', hframes', hother⟩ | ⟨rfl, hstorage, ⟨dealloc, rfl⟩, hpop⟩
    · exact .inl ⟨inner', hframes', hfirst.tail act (append_cons_ne _ _ _) (hother aPool)⟩
    · right
      rw [State.popTail, if_pos rfl] at hpop
      obtain ⟨rfl, rfl⟩ := Prod.mk.inj (Option.some.inj hpop)
      refine ⟨rfl, fun tail owner hafter => ?_⟩
      apply hfirst.tail (.run dealloc) (append_cons_ne _ _ _)
      have hafter : after NSAutoreleasePool.address pool t.config.pools = tail :: owner := hafter
      simp only [State.stepNested, State.step, List.nil_append, State.runFrame, hstorage,
        State.popTail, if_neg hne, hafter]
      rfl
  · exact absurd hframes hrunning

/-- Below the current pool, the same pools may be popped as before. -/
theorem mem_take_owner {x a n : ℕ} {ids : List ℕ} (hne : x ≠ a) :
    a ∈ (x :: ids).take (ids.length + 1 - n) ↔ a ∈ ids.take (ids.length - n) := by
  by_cases hn : n ≤ ids.length
  · rw [Nat.sub_add_comm hn, List.take_succ_cons, List.mem_cons]
    exact ⟨fun h => h.resolve_left hne.symm, .inr⟩
  · rw [Nat.sub_eq_zero_of_le (by omega), Nat.sub_eq_zero_of_le (by omega), List.take_zero,
      List.take_zero]

theorem head_mem_take {x a n : ℕ} {ids : List ℕ} (h : a ∈ ids.take (ids.length - n)) :
    x ∈ (x :: ids).take (ids.length + 1 - n) := by
  have hn : n ≤ ids.length := by
    by_contra hlt
    rw [Nat.sub_eq_zero_of_le (by omega), List.take_zero] at h
    cases h
  rw [Nat.sub_add_comm hn, List.take_succ_cons]
  exact List.mem_cons_self

/-- A pop of the current pool leaves its owner. -/
theorem State.Popped.addresses_eq (h : s.Popped isConstant tail.address es s') (hs : s.Sound)
    (hpools : s.config.pools = tail :: owner) :
    s'.Sound ∧ addresses s'.config.pools = addresses owner := by
  obtain ⟨s₁, hpop, hrun, hreturned⟩ := h
  have hs₁ := sound_stepNested hpop hs
  obtain ⟨-, tail', owner', hpools', -, rfl⟩ := stepNested_pop_iff.mp hpop
  obtain ⟨rfl, rfl⟩ := List.cons.inj (hpools.symm.trans hpools')
  have habove : (s.popping tail.address tail.address).Above s.frames (addresses owner) := by
    refine ⟨[.releaseAll tail.address (some tail.address)], rfl, ?_⟩
    rw [State.popping, hpools, restored, restored, addresses_cons, after, id, if_pos rfl]
  exact ⟨hrun.invariant State.Sound (fun _ h hstep => sound_stepNested hstep h) hs₁,
    addresses_of_run hs₁ habove hrun hreturned⟩

theorem popped_of_drained (h : s.Drained isConstant aPool es s') (hs : s.Sound) :
    s.Popped isConstant aPool es s' := by
  induction h with
  | last hpools hpop hself => rwa [hself] at hpop
  | @next s s' s'' es fs tail owner hpools hpop hother hrest ih =>
    obtain ⟨hs', hbelow⟩ := hpop.addresses_eq hs hpools
    obtain ⟨s₁, hcall, hrun, hreturned⟩ := hpop
    obtain ⟨s₂, hcall', hrun', hreturned'⟩ := ih hs'
    obtain ⟨-, top, owner₁, htop, -, rfl⟩ := stepNested_pop_iff.mp hcall
    obtain ⟨⟨floor, hcode, hmem⟩, tail', owner₂, hpools', -, rfl⟩ := stepNested_pop_iff.mp hcall'
    obtain ⟨rfl, rfl⟩ := List.cons.inj (hpools.symm.trans htop)
    rw [State.Code, hreturned] at hcode
    rw [hbelow] at hmem
    have hmay : s.MayPop aPool := by
      refine ⟨floor, hcode, ?_⟩
      rw [hpools]
      exact (mem_take_owner hother).mpr hmem
    refine ⟨_, stepNested_pop_iff.mpr ⟨hmay, tail, owner, hpools, rfl, rfl⟩, ?_,
      hreturned'.trans hreturned⟩
    rw [hreturned] at hrun'
    exact (run_popping_join hother hrun hreturned hpools').append hrun'

theorem drained_of_popped (h : s.Popped isConstant aPool es s') (hs : s.Sound) :
    s.Drained isConstant aPool es s' := by
  induction hlength : (addresses s.config.pools).length generalizing s es with
  | zero =>
    obtain ⟨s₁, hcall, -⟩ := h
    obtain ⟨-, tail, owner, hpools, -⟩ := stepNested_pop_iff.mp hcall
    rw [hpools] at hlength
    cases hlength
  | succ n ih =>
    obtain ⟨s₁, hcall, hrun, hreturned⟩ := h
    obtain ⟨⟨floor, hcode, hmem⟩, tail, owner, hpools, -, rfl⟩ := stepNested_pop_iff.mp hcall
    by_cases hself : tail.address = aPool
    · subst hself
      exact .last hpools ⟨_, hcall, hrun, hreturned⟩ rfl
    · obtain ⟨es₁, es₂, u, tail', owner', rfl, hfirst, hu, hpools', hrest⟩ :=
        run_popping_split hself hrun hreturned
      rw [hpools] at hmem
      have hbelow := (mem_take_owner hself).mp hmem
      have hmay : s.MayPop tail.address := by
        refine ⟨floor, hcode, ?_⟩
        rw [hpools]
        exact head_mem_take hbelow
      have hpop : s.Popped isConstant tail.address es₁ u :=
        ⟨_, stepNested_pop_iff.mpr ⟨hmay, tail, owner, hpools, rfl, rfl⟩, hfirst, hu⟩
      obtain ⟨hsound, howner⟩ := hpop.addresses_eq hs hpools
      have hrest' : u.Popped isConstant aPool es₂ s' := by
        have hmay' : u.MayPop aPool := by
          refine ⟨floor, ?_, ?_⟩
          · rwa [State.Code, hu]
          · rwa [howner]
        refine ⟨_, stepNested_pop_iff.mpr ⟨hmay', tail', owner', hpools', rfl, rfl⟩, ?_,
          hreturned.trans hu.symm⟩
        rwa [hu]
      refine .next hpools hpop hself (ih hrest' hsound ?_)
      rw [hpools, addresses_cons, List.length_cons] at hlength
      rw [howner]
      omega

end Pop

/-- The loop of `-dealloc` does what one call of `popAutoreleasePool` does, whatever the `-dealloc`s
of the released objects do. -/
theorem drained_iff_popped (hasMap : Bool)
    (hreach : Run (State.stepNested isConstant) (.init hasMap) fs s) (self : ℕ) :
    s.Drained isConstant self es s' ↔ s.Popped isConstant self es s' := by
  have hs := hreach.invariant State.Sound (fun _ h hstep => sound_stepNested hstep h)
    (sound_init hasMap)
  exact ⟨fun h => popped_of_drained h hs, fun h => drained_of_popped h hs⟩

/-- A call of the thread itself, as a list of steps. -/
theorem popped_of_execWhile {s₁ : State Obj} {aPool : ℕ} {acts : List (Act Obj)}
    (hnone : s.frames = []) (hcall : s.stepNested isConstant (.pop aPool) = some ([], s₁))
    (hwhile : execWhile (State.stepNested isConstant) (fun t _ => t.frames.length ≠ 0) s₁ acts =
      some (es, s')) (hreturned : s'.frames = []) : s.Popped isConstant aPool es s' := by
  refine ⟨s₁, hcall, ?_, hreturned.trans hnone.symm⟩
  have hrun := runWhile_of_execWhile _ hwhile
  rw [hnone]
  simpa only [ne_eq, List.length_eq_zero_iff] using hrun

/-- The receiver is below the current pool. -/
theorem drained_below : ∃ (s s' : State ℕ) (es fs : List (Event ℕ)),
    (Run (State.stepNested fun _ => false) (.init false) fs s ∧
      es = [.released 1 6, .popped 1, .released 0 5, .popped 0] ∧
      s.Popped (fun _ => false) 0 es s') ∧ s.Drained (fun _ => false) 0 es s' := by
  have h : ∃ (s s₁ s' : State ℕ) (es fs : List (Event ℕ)),
      exec (State.stepNested fun _ => false) (.init false)
        [.push, .autorelease 5, .push, .autorelease 6] = some (fs, s) ∧
      s.stepNested (fun _ => false) (.pop 0) = some ([], s₁) ∧
      execWhile (State.stepNested fun _ => false) (fun t _ => t.frames.length ≠ 0) s₁
        (List.replicate 8 (.run false)) = some (es, s') ∧ s.frames = [] ∧ s'.frames = [] ∧
      es = [.released 1 6, .popped 1, .released 0 5, .popped 0] :=
    ⟨_, _, _, _, _, rfl, rfl, rfl, rfl, rfl, rfl⟩
  obtain ⟨s, s₁, s', es, fs, hexec, hcall, hwhile, hnone, hreturned, hes⟩ := h
  have hreach := run_of_exec _ _ _ hexec
  have hpopped := popped_of_execWhile hnone hcall hwhile hreturned
  exact ⟨s, s', es, fs, ⟨hreach, hes, hpopped⟩, (drained_iff_popped false hreach 0).mpr hpopped⟩

/-- `while( config->tail) (*config->pop)( config, config->tail);` -/
inductive State.Emptied (isConstant : Obj → Bool) : State Obj → List (Event Obj) → State Obj → Prop
  | done {s : State Obj} (hpools : s.config.pools = []) : Emptied isConstant s [] s
  | next {s s' s'' : State Obj} {es fs : List (Event Obj)} {pool : NSAutoreleasePool Obj}
      {owner : List (NSAutoreleasePool Obj)} (hpools : s.config.pools = pool :: owner)
      (hpop : s.Popped isConstant pool.address es s') (hrest : Emptied isConstant s' fs s'') :
      Emptied isConstant s (es ++ fs) s''

/-- What happens to the pool configuration of a thread. -/
inductive Phase
  /-- Objective-C code is called, and returns. -/
  | code
  /-- `mulle_objc_thread_reset_poolconfiguration` -/
  | reset
  /-- `mulle_objc_thread_done_poolconfiguration` -/
  | done
  deriving DecidableEq

/-- The phases of `_MulleThreadTakedownPoolAndRelease`. -/
def takedownPoolAndRelease : List Phase :=
  -- `[threadObject mullePerformFinalize]`, then `[threadObject release]`
  [.code, .reset, .code, .done]

/-- The phases of `_mulle_objc_universefoundationinfo_willfinalize`. -/
def willfinalize : List Phase :=
  -- the main thread object is finalized
  [.reset, .code, .reset]

/-- The phases of `_mulle_objc_universefoundationinfo_finalize`. -/
def finalize : List Phase :=
  -- `teardown_callback`, then the singletons, then the root objects
  [.code, .reset, .code, .reset, .code]

/-- A phase, with what is reported. -/
inductive Phase.Runs (isConstant : Obj → Bool) :
    Phase → State Obj → List (Event Obj) → State Obj → Prop
  | code {s s' : State Obj} {es : List (Event Obj)}
      (hrun : Run (State.stepNested isConstant) s es s') (hreturned : s'.frames = []) :
      Runs isConstant .code s es s'
  | reset {s s' s'' : State Obj} {es fs : List (Event Obj)} (hemptied : s.Emptied isConstant es s')
      (hpush : s'.stepNested isConstant .push = some (fs, s'')) :
      Runs isConstant .reset s (es ++ fs) s''
  | done {s s' : State Obj} {es : List (Event Obj)} (hemptied : s.Emptied isConstant es s') :
      Runs isConstant .done s es { s' with config.objectMap := none }

/-- One phase after the other. -/
inductive Phase.RunAll (isConstant : Obj → Bool) :
    List Phase → State Obj → List (Event Obj) → State Obj → Prop
  | nil (s : State Obj) : RunAll isConstant [] s [] s
  | concat {phases : List Phase} {phase : Phase} {s s' s'' : State Obj} {es fs : List (Event Obj)}
      (hfirst : RunAll isConstant phases s es s') (hlast : phase.Runs isConstant s' fs s'') :
      RunAll isConstant (phases ++ [phase]) s (es ++ fs) s''

/-- The reports of a thread, and what they leave. -/
structure Books (es : List (Event Obj)) (s : State Obj) : Prop where
  sound : s.Sound
  balance : ∀ pool p, es.count (.added pool p) =
    es.count (.released pool p) + s.pending (fun a => a == pool) p
  popped : ∀ pool, es.count (.pushed pool) =
    es.count (.popped pool) + if pool ∈ addresses s.config.pools then 1 else 0
  once : ∀ pool, es.count (.pushed pool) = if pool < s.nextPool then 1 else 0

/-- A pool is popped off the top of the stack. -/
theorem Change.popped_eq (h : Change s es s') (hs : s.Sound) (pool : ℕ) :
    es.count (.pushed pool) + (if pool ∈ addresses s.config.pools then 1 else 0) =
      es.count (.popped pool) + (if pool ∈ addresses s'.config.pools then 1 else 0) := by
  have hpop : ∀ {a popTo rest}, s.frames = .releaseAll a (some popTo) :: rest →
      ([Event.popped a] : List (Event Obj)).count (.pushed pool) +
          (if pool ∈ addresses s.config.pools then 1 else 0) =
        ([Event.popped a] : List (Event Obj)).count (.popped pool) +
          if pool ∈ addresses (after NSAutoreleasePool.address a s.config.pools) then 1 else 0 := by
    intro a popTo rest hframes
    have hhead := hs.disciplined
    rw [hframes] at hhead
    obtain ⟨p, owner, hpools, rfl, -⟩ := storageOf_head hhead.1
    have hnodup := hs.nodup
    rw [hpools, addresses_cons, List.nodup_cons] at hnodup
    rw [hpools, after, if_pos rfl, addresses_cons]
    by_cases hpool : p.address = pool
    · subst hpool
      simp [hnodup.1]
    · simp [hpool, Ne.symm hpool]
  cases h with
  | popLast hframes => exact hpop hframes
  | popNext _ hframes _ hafter =>
    have h := hpop hframes
    rwa [hafter] at h
  | push =>
    have hnew : s.nextPool ∉ addresses s.config.pools :=
      fun hmem => Nat.lt_irrefl _ (hs.lt_nextPool _ hmem)
    by_cases hpool : s.nextPool = pool
    · subst hpool
      simp [hnew]
    · simp [hpool, Ne.symm hpool]
  | @add _ _ top owner hpools storage ps hslots map =>
    have hpushed : (ps.map (Event.added top.address)).count (.pushed pool) = 0 :=
      List.count_eq_zero.mpr (by simp)
    have hpopped : (ps.map (Event.added top.address)).count (.popped pool) = 0 :=
      List.count_eq_zero.mpr (by simp)
    rw [hpushed, hpopped, hpools]
    rfl
  | detach => simp
  | remove => simp [State.releaseEntry]
  | _ => rfl

/-- The address of a pool is not used again. -/
theorem Change.once_eq (h : Change s es s') (pool : ℕ) :
    es.count (.pushed pool) + (if pool < s.nextPool then 1 else 0) =
      if pool < s'.nextPool then 1 else 0 := by
  cases h with
  | push =>
    rw [List.count_singleton]
    by_cases hpool : s.nextPool = pool
    · simp [hpool]
    · have hiff : pool < s.nextPool + 1 ↔ pool < s.nextPool := by omega
      simp [hpool, hiff]
  | @add _ _ top _ _ _ ps =>
    have hpushed : (ps.map (Event.added top.address)).count (.pushed pool) = 0 :=
      List.count_eq_zero.mpr (by simp)
    rw [hpushed, Nat.zero_add]
  | release => exact Nat.zero_add _
  | remove => exact Nat.zero_add _
  | _ => simp

namespace Books

theorem init (hasMap : Bool) : Books [] (.init hasMap : State Obj) where
  sound := sound_init hasMap
  balance _ _ := rfl
  popped _ := rfl
  once _ := rfl

theorem step (h : Books es s) (hstep : s.stepNested isConstant act = some (fs, s')) :
    Books (es ++ fs) s' where
  sound := sound_stepNested hstep h.sound
  balance pool p := by
    have hbalance := balance_stepNested hstep h.sound (fun a => a == pool) p
    have hold := h.balance pool p
    rw [countP_isAdded_eq_count, countP_isReleased_eq_count] at hbalance
    rw [List.count_append, List.count_append]
    omega
  popped pool := by
    have hold := h.popped pool
    rw [List.count_append, List.count_append]
    rcases stepNested_cases hstep with hplain | ⟨rfl, gs, rfl, -⟩
    · have hnew := (step_change hplain).popped_eq h.sound pool
      omega
    · exact hold
  once pool := by
    have hold := h.once pool
    rw [List.count_append]
    rcases stepNested_cases hstep with hplain | ⟨rfl, gs, rfl, -⟩
    · have hnew := (step_change hplain).once_eq pool
      omega
    · exact hold

theorem run (h : Books es s) (hrun : Run (State.stepNested isConstant) s fs s') :
    Books (es ++ fs) s' := by
  refine hrun.invariant_trace (fun fs t => Books (es ++ fs) t) (fun _ hbooks hstep => ?_) ?_
  · rw [← List.append_assoc]
    exact hbooks.step hstep
  · rwa [List.append_nil]

end Books

theorem State.Popped.run {aPool : ℕ} (h : s.Popped isConstant aPool es s') :
    Run (State.stepNested isConstant) s es s' := by
  obtain ⟨s₁, hcall, hrun, -⟩ := h
  exact RunWhile.head trivial hcall hrun.run

/-- The loop of a reset leaves no pool, and the code that has called it. -/
theorem State.Emptied.run (h : s.Emptied isConstant es s') :
    Run (State.stepNested isConstant) s es s' ∧ s'.config.pools = [] ∧ s'.frames = s.frames := by
  induction h with
  | done hpools => exact ⟨.refl _, hpools, rfl⟩
  | next hpools hpop hrest ih =>
    obtain ⟨hrun, hnone, hframes⟩ := ih
    have hreturned := hpop
    obtain ⟨s₁, -, -, hreturned⟩ := hreturned
    exact ⟨hpop.run.append hrun, hnone, hframes.trans hreturned⟩

/-- A phase keeps the books, and returns. -/
theorem Phase.Runs.books {phase : Phase} (h : phase.Runs isConstant s fs s') (hbooks : Books es s)
    (hframes : s.frames = []) : Books (es ++ fs) s' ∧ s'.frames = [] := by
  cases h with
  | code hrun hreturned => exact ⟨hbooks.run hrun, hreturned⟩
  | reset hemptied hpush =>
    obtain ⟨hrun, -, hreturned⟩ := hemptied.run
    rw [hframes] at hreturned
    refine ⟨hbooks.run (hrun.tail .push trivial hpush), ?_⟩
    simp only [State.stepNested, State.step, hreturned, State.call] at hpush
    obtain ⟨-, rfl⟩ := Prod.mk.inj (Option.some.inj hpush)
    rfl
  | done hemptied =>
    obtain ⟨hrun, -, hreturned⟩ := hemptied.run
    have hend := hbooks.run hrun
    exact ⟨⟨⟨hend.sound.disciplined, hend.sound.nodup, hend.sound.lt_nextPool⟩, hend.balance,
      hend.popped, hend.once⟩, hreturned.trans hframes⟩

theorem Phase.RunAll.books {phases : List Phase} (h : Phase.RunAll isConstant phases s fs s')
    (hbooks : Books es s) (hframes : s.frames = []) : Books (es ++ fs) s' ∧ s'.frames = [] := by
  induction h with
  | nil => exact ⟨by rwa [List.append_nil], hframes⟩
  | concat hfirst hlast ih =>
    obtain ⟨hbooks', hframes'⟩ := ih hbooks hframes
    rw [← List.append_assoc]
    exact hlast.books hbooks' hframes'

/-- Everything that was autoreleased is released, and every pool but those that are left is popped,
once. -/
structure Settled (es : List (Event Obj)) (s : State Obj) : Prop where
  released : ∀ pool p, es.count (.added pool p) = es.count (.released pool p)
  popped : ∀ pool, es.count (.pushed pool) =
    es.count (.popped pool) + if pool ∈ addresses s.config.pools then 1 else 0
  once : ∀ pool, es.count (.pushed pool) ≤ 1

theorem Books.settled (h : Books es s) (hpending : ∀ pool p, s.pending (fun a => a == pool) p = 0) :
    Settled es s where
  released pool p := by rw [h.balance pool p, hpending pool p, Nat.add_zero]
  popped := h.popped
  once pool := by
    rw [h.once pool]
    split <;> omega

theorem Phase.RunAll.last {phases : List Phase} {phase : Phase}
    (h : Phase.RunAll isConstant (phases ++ [phase]) s es s'') :
    ∃ es₁ es₂ s', Phase.RunAll isConstant phases s es₁ s' ∧ phase.Runs isConstant s' es₂ s'' ∧
      es = es₁ ++ es₂ := by
  generalize hall : phases ++ [phase] = all at h
  cases h with
  | nil => exact absurd hall (by simp)
  | concat hfirst hlast =>
    obtain ⟨rfl, hphase⟩ := List.append_inj' hall rfl
    obtain rfl := List.singleton_inj.mp hphase
    exact ⟨_, _, _, hfirst, hlast, rfl⟩

/-- Behind a reset there is one pool, without objects, and behind the end there is none. Whatever
was autoreleased before, in any order of phases and by whatever `-dealloc`, is released. -/
theorem settled_of_phases (hasMap : Bool) {phases : List Phase} {phase : Phase}
    (hphase : phase ≠ .code)
    (hrun : Phase.RunAll isConstant (phases ++ [phase]) (.init hasMap) es s) :
    Settled es s ∧ s.frames = [] ∧
      s.config.pools.map NSAutoreleasePool.storage = if phase = .reset then [[.init]] else [] := by
  obtain ⟨hbooks, hframes⟩ := hrun.books (Books.init hasMap) rfl
  rw [List.nil_append] at hbooks
  suffices hpools : s.config.pools.map NSAutoreleasePool.storage =
      if phase = .reset then [[.init]] else [] by
    refine ⟨hbooks.settled fun pool p => ?_, hframes, hpools⟩
    rw [State.pending, hframes, List.map_nil, List.sum_nil, Nat.add_zero]
    generalize s.config.pools = pools at hpools
    have hslots : ∀ q ∈ pools, q.storage.slots = [] := by
      intro q hq
      have hmem := List.mem_map_of_mem (f := NSAutoreleasePool.storage) hq
      rw [hpools] at hmem
      split at hmem
      · rw [List.mem_singleton.mp hmem]
        rfl
      · cases hmem
    clear hpools
    induction pools with
    | nil => rfl
    | cons q owner ih =>
      rw [pendingIn, entriesIn, hslots q List.mem_cons_self,
        ih fun r hr => hslots r (List.mem_cons_of_mem q hr)]
      split <;> rfl
  obtain ⟨es₁, es₂, s', hfirst, hlast, -⟩ := hrun.last
  obtain ⟨-, hframes'⟩ := hfirst.books (Books.init hasMap) rfl
  cases hlast with
  | code => exact absurd rfl hphase
  | reset hemptied hpush =>
    obtain ⟨-, hnone, hreturned⟩ := hemptied.run
    rw [hframes'] at hreturned
    simp only [State.stepNested, State.step, hreturned, State.call, hnone] at hpush
    obtain ⟨-, rfl⟩ := Prod.mk.inj (Option.some.inj hpush)
    rfl
  | done hemptied =>
    obtain ⟨-, hnone, -⟩ := hemptied.run
    simp [hnone]

/-- A thread autoreleases an object before and behind a reset. -/
theorem settled_twice : ∃ (s : State ℕ) (es : List (Event ℕ)),
    (Phase.RunAll (fun _ => false) ([.code, .reset, .code] ++ [.done]) (.init true) es s ∧
      es = [.pushed 0, .added 0 5, .released 0 5, .popped 0, .pushed 1, .added 1 6, .released 1 6,
        .popped 1]) ∧ Settled es s := by
  have h : ∃ (s₁ s₂ s₃ s₄ s₅ s₆ s₇ : State ℕ) (p q : NSAutoreleasePool ℕ)
      (es₁ es₂ es₃ es₄ es₅ : List (Event ℕ)),
      exec (State.stepNested fun _ => false) (.init true) [.push, .autorelease 5] =
        some (es₁, s₁) ∧
      s₁.frames = [] ∧ s₁.config.pools = [p] ∧
      s₁.stepNested (fun _ => false) (.pop p.address) = some ([], s₂) ∧
      execWhile (State.stepNested fun _ => false) (fun t _ => t.frames.length ≠ 0) s₂
        (List.replicate 4 (.run false)) = some (es₂, s₃) ∧
      s₃.frames = [] ∧ s₃.config.pools = [] ∧
      s₃.stepNested (fun _ => false) .push = some (es₃, s₄) ∧
      exec (State.stepNested fun _ => false) s₄ [.autorelease 6] = some (es₄, s₅) ∧
      s₅.frames = [] ∧ s₅.config.pools = [q] ∧
      s₅.stepNested (fun _ => false) (.pop q.address) = some ([], s₆) ∧
      execWhile (State.stepNested fun _ => false) (fun t _ => t.frames.length ≠ 0) s₆
        (List.replicate 4 (.run false)) = some (es₅, s₇) ∧
      s₇.frames = [] ∧ s₇.config.pools = [] ∧
      es₁ ++ (es₂ ++ [] ++ es₃) ++ es₄ ++ (es₅ ++ []) = [.pushed 0, .added 0 5, .released 0 5,
        .popped 0, .pushed 1, .added 1 6, .released 1 6, .popped 1] :=
    ⟨_, _, _, _, _, _, _, _, _, _, _, _, _, _, rfl, rfl, rfl, rfl, rfl, rfl, rfl, rfl, rfl, rfl, rfl,
      rfl, rfl, rfl, rfl, rfl⟩
  obtain ⟨s₁, s₂, s₃, s₄, s₅, s₆, s₇, p, q, es₁, es₂, es₃, es₄, es₅, hcode, hnone, hpools, hcall,
    hwhile, hreturned, hempty, hpush, hcode', hnone', hpools', hcall', hwhile', hreturned', hempty',
    hes⟩ := h
  have hreset : Phase.Runs (fun _ => false) .reset s₁ (es₂ ++ [] ++ es₃) s₄ :=
    .reset (.next hpools (popped_of_execWhile hnone hcall hwhile hreturned) (.done hempty)) hpush
  have hdone : Phase.Runs (fun _ => false) .done s₅ (es₅ ++ [])
      { s₇ with config.objectMap := none } :=
    .done (.next hpools' (popped_of_execWhile hnone' hcall' hwhile' hreturned') (.done hempty'))
  have hrun := (((Phase.RunAll.nil _).concat (.code (run_of_exec _ _ _ hcode) hnone)).concat
    hreset).concat (.code (run_of_exec _ _ _ hcode') hnone')
  refine ⟨_, _, ⟨hrun.concat hdone, hes⟩, (settled_of_phases true (by simp) (hrun.concat hdone)).1⟩

/-- A thread is taken down. -/
theorem settled_of_takedown (hasMap : Bool)
    (hrun : Phase.RunAll isConstant ([.code] ++ takedownPoolAndRelease) (.init hasMap) es s) :
    Settled es s ∧ s.config.pools = [] := by
  have hlast : Phase.RunAll isConstant ([.code, .code, .reset, .code] ++ [.done]) (.init hasMap)
      es s := hrun
  have h := settled_of_phases hasMap (by simp) hlast
  exact ⟨h.1, List.map_eq_nil_iff.mp h.2.2⟩

/-- The universe is torn down, by the main thread. -/
theorem settled_of_teardown (hasMap : Bool)
    (hrun : Phase.RunAll isConstant ([.code] ++ willfinalize ++ [.code] ++ finalize ++ [.code] ++
      takedownPoolAndRelease) (.init hasMap) es s) :
    Settled es s ∧ s.config.pools = [] := by
  have hlast : Phase.RunAll isConstant ([.code] ++ willfinalize ++ [.code] ++ finalize ++
      [.code, .code, .reset, .code] ++ [.done]) (.init hasMap) es s := hrun
  have h := settled_of_phases hasMap (by simp) hlast
  exact ⟨h.1, List.map_eq_nil_iff.mp h.2.2⟩

end MulleObjC.Pool
