import Mathlib.Algebra.Order.BigOperators.Group.Finset
import MulleObjC.Access.World

/-!
# Access transfers keep the books

The retain count of every counted object is the number of references that code holds,
of its entries in the pools of all threads and of its outstanding relinquishes. An
object that belongs to one thread at a time has no thread exactly while a relinquish
is outstanding.
-/

namespace MulleObjC.Access

open Pool Machine

variable {Thread Obj : Type*} [DecidableEq Thread] [DecidableEq Obj]

/-- The entries for an object in all pools of a thread. -/
def pending (s : Pool.State Obj) (o : Obj) : ℕ := s.pending (fun _ => true) o

/-- The number of times a list of events adds an object to a pool. -/
def additions (es : List (Event Obj)) (o : Obj) : ℕ :=
  es.countP (Event.isAdded (fun _ => true) o)

section Pools

variable {isConstant : Obj → Bool}

/-- Pool functions add nothing unless code calls them. -/
theorem additions_of_not_code {s s' : Pool.State Obj} {es : List (Event Obj)}
    (h : Change s es s') (hcode : ∀ floor, ¬ s.Code floor) (o : Obj) : additions es o = 0 := by
  cases h with
  | push hc => exact absurd hc (hcode _)
  | add hc => exact absurd hc (hcode _)
  | _ => simp [additions, Event.isAdded]

theorem additions_addedEvents {s : Pool.State Obj} (hpools : s.config.pools ≠ []) (ps : List Obj)
    (o : Obj) : additions (s.addedEvents ps) o = ps.count o := by
  obtain ⟨pool, owner, hconfig⟩ := List.exists_cons_of_ne_nil hpools
  rw [State.addedEvents, hconfig, additions, countP_isAdded_map, if_pos rfl,
    List.count_map_of_injective _ _ (Option.some_injective Obj)]

/-- With a pool in place, what is handed over is added. -/
theorem additions_call {s s' : Pool.State Obj} {floor : ℕ} {act : Pool.Act Obj}
    {es : List (Event Obj)} (h : s.call isConstant floor act = some (es, s')) {o : Obj}
    (ho : isConstant o = false) (hpools : handedOver act ≠ [] → s.config.pools ≠ []) :
    additions es o = (handedOver act).count o := by
  cases act with
  | push =>
    obtain ⟨rfl, rfl⟩ := Prod.mk.inj (Option.some.inj h)
    rfl
  | autorelease p =>
    obtain ⟨rfl, rfl⟩ := Prod.mk.inj (Option.some.inj h)
    rw [additions_addedEvents (hpools (List.cons_ne_nil _ _)), handedOver]
    split
    · rename_i hp
      have hne : p ≠ o := by rintro rfl; simp [ho] at hp
      simp [hne]
    · rfl
  | autoreleaseObjects objects count step =>
    obtain ⟨rfl, rfl⟩ := Prod.mk.inj (Option.some.inj h)
    rw [handedOver] at hpools ⊢
    by_cases hnil : PoolConfiguration.addressed objects count step = []
    · rw [hnil, State.addedEvents]
      split <;> rfl
    · exact additions_addedEvents (hpools hnil) _ o
  | pop aPool =>
    rw [State.call] at h
    split at h
    · cases h
    · split at h
      · obtain ⟨rfl, rfl⟩ := Prod.mk.inj (Option.some.inj h)
        rfl
      · cases h
  | releasePoolObjects ps owners => cases h
  | releaseAllPoolObjects pool => cases h
  | leave => cases h
  | run dealloc => cases h

/-- The same for every step. -/
theorem additions_step {s s' : Pool.State Obj} {act : Pool.Act Obj} {es : List (Event Obj)}
    (h : s.step isConstant act = some (es, s')) {o : Obj} (ho : isConstant o = false)
    (hpools : handedOver act ≠ [] → s.config.pools ≠ []) :
    additions es o = (handedOver act).count o := by
  cases takes_of_step h with
  | releasePoolObjects | releaseAllPoolObjects | leave => rfl
  | call _ hcall => exact additions_call hcall ho hpools
  | run hframes hrun =>
    refine additions_of_not_code (step_change h) (fun floor hcode => ?_) o
    rcases hcode with ⟨hnil, -⟩ | ⟨rest, hdealloc⟩
    · cases hframes.symm.trans hnil
    · obtain ⟨rfl, -⟩ := List.cons.inj (hframes.symm.trans hdealloc)
      cases hrun

/-- An autorelease releases nothing. -/
theorem releases_autorelease {s s' : Pool.State Obj} {q : Obj} {es : List (Event Obj)}
    (h : s.step isConstant (.autorelease q) = some (es, s')) (o : Obj) :
    World.releases es o = 0 := by
  have hes : es = s.addedEvents (if isConstant q then [] else [q]) := by
    cases takes_of_step h with
    | call _ h => exact (Prod.mk.inj (Option.some.inj h)).1.symm
  rw [hes, State.addedEvents, World.releases]
  split
  · rfl
  · exact countP_isReleased_map _ _

/-- A step of the pools changes the entries by what it adds and releases. -/
theorem pending_step {s s' : Pool.State Obj} {act : Pool.Act Obj} {es : List (Event Obj)}
    (h : s.step isConstant act = some (es, s')) (hs : s.Sound) (o : Obj) :
    additions es o + pending s o = World.releases es o + pending s' o :=
  (step_change h).balance hs

/-- A removal changes the entries by what it releases. -/
theorem pending_removal (s : Pool.State Obj) (ps : List Obj) (owners : Bool) (o : Obj) :
    World.releases (s.releaseObjects ps owners).1 o + pending (s.releaseObjects ps owners).2 o =
      pending s o := by
  rw [Nat.add_comm]
  exact pending_releaseObjects s ps owners

end Pools

section Counts

variable {classes : Classes Obj}

omit [DecidableEq Obj] in
theorem release_of_counted {o : Obj} (ho : classes.isConstant o = false)
    (retainCount released : Obj → ℕ) :
    World.release classes retainCount released o = retainCount o - released o := by
  rw [World.release, ho, if_neg Bool.false_ne_true]

omit [DecidableEq Thread] in
theorem retain_of_counted (w : World Thread Obj) {o p : Obj}
    (hp : classes.isConstant p = false) :
    w.retain classes o p = w.retainCount p + if p = o then 1 else 0 := by
  rw [World.retain]
  by_cases hpo : p = o
  · subst hpo
    simp [hp]
  · split <;> simp [hpo]

theorem release_nil (retainCount : Obj → ℕ) :
    World.release classes retainCount (World.releases []) = retainCount := by
  funext o
  simp [World.release, World.releases]

omit [DecidableEq Obj] in
/-- Only thread safe objects keep their thread id in a relinquish. -/
theorem removal_ne_none {strategy : TAOStrategy} {id : ThreadId Thread}
    (hid : id ≠ .isThreadsafe) (hstrategy : ¬ strategy.IsKnownThreadSafe) :
    removal strategy id ≠ none := by
  cases strategy <;> simp_all [removal, TAOStrategy.IsKnownThreadSafe]

omit [DecidableEq Obj] in
theorem removal_of_isThreadsafe (strategy : TAOStrategy) :
    removal strategy (.isThreadsafe : ThreadId Thread) = none := by
  cases strategy <;> rfl

omit [DecidableEq Obj] in
theorem gainedId_of_isThreadsafe (strategy : TAOStrategy) (t : Thread) :
    gainedId strategy .isThreadsafe t = .isThreadsafe := by
  cases strategy <;> rfl

omit [DecidableEq Obj] in
/-- Only thread safe objects keep their thread id in a gain. -/
theorem gainedId_eq {strategy : TAOStrategy} {id : ThreadId Thread} (hid : id ≠ .isThreadsafe)
    (hstrategy : ¬ strategy.IsKnownThreadSafe) (t : Thread) :
    gainedId strategy id t = .thread t := by
  cases strategy <;> simp_all [gainedId, TAOStrategy.IsKnownThreadSafe]

end Counts

section Sums

variable [Fintype Thread]

/-- The entries for an object in all pools of all threads. -/
def World.pending (w : World Thread Obj) (o : Obj) : ℕ := ∑ t, Access.pending (w.pools t) o

/-- The pools of one thread change. -/
theorem sum_pending_update (pools : Thread → Pool.State Obj) (t : Thread) (s : Pool.State Obj)
    (o : Obj) :
    ∑ u, Access.pending (Function.update pools t s u) o + Access.pending (pools t) o =
      ∑ u, Access.pending (pools u) o + Access.pending s o := by
  have hupdate : ∀ u, Access.pending (Function.update pools t s u) o =
      Function.update (fun u => Access.pending (pools u) o) t (Access.pending s o) u := by
    intro u
    by_cases hu : u = t
    · subst hu
      simp
    · simp [hu]
  simp only [hupdate]
  rw [Finset.sum_update_of_mem (Finset.mem_univ t),
    ← Finset.add_sum_erase Finset.univ (fun u => Access.pending (pools u) o) (Finset.mem_univ t),
    Finset.sdiff_singleton_eq_erase]
  omega

omit [DecidableEq Thread] in
/-- One thread has at most as many entries as all threads. -/
theorem pending_le (w : World Thread Obj) (t : Thread) (o : Obj) :
    Access.pending (w.pools t) o ≤ w.pending o :=
  Finset.single_le_sum (f := fun u => Access.pending (w.pools u) o) (fun _ _ => Nat.zero_le _)
    (Finset.mem_univ t)

/-- The books of one object. -/
def World.Balanced (w : World Thread Obj) (o : Obj) : Prop :=
  w.retainCount o = w.owners o + w.pending o + w.relinquished o

/-- The affinity of one object: it has no thread exactly while it is relinquished. -/
def World.Affine (w : World Thread Obj) (o : Obj) : Prop :=
  w.threadId o = .hasNoThread ↔ 0 < w.relinquished o

/-- The invariant: thread pools are sound, counted objects are balanced, and those that
belong to one thread at a time have their affinity right. -/
structure World.Sound (classes : Classes Obj) (w : World Thread Obj) : Prop where
  pools : ∀ t, (w.pools t).Sound
  balanced : ∀ o, classes.isConstant o = false → w.Balanced o
  relinquished_le : ∀ o, w.relinquished o ≤ 1
  affine : ∀ o, classes.isConstant o = false → 0 < w.retainCount o →
    w.threadId o ≠ .isThreadsafe → ¬ (classes.strategy o).IsKnownThreadSafe → w.Affine o

variable {classes : Classes Obj} {w w' : World Thread Obj} {t : Thread} {es : List (Event Obj)}

/-- The pools of one thread change soundly. -/
theorem sound_update (hw : w.Sound classes) {s : Pool.State Obj} (hs : s.Sound) (u : Thread) :
    (Function.update w.pools t s u).Sound := by
  by_cases hu : u = t
  · subst hu
    rwa [Function.update_self]
  · rw [Function.update_of_ne hu]
    exact hw.pools u

omit [Fintype Thread] in
theorem step_pool_eq {act : Pool.Act Obj} (h : w.step classes (t, .pool act) = some (es, w')) :
    (∀ o ∈ handedOver act, (handedOver act).count o ≤ w.owners o) ∧
    ∃ s, (w.pools t).step classes.isConstant act = some (es, s) ∧
      w' = { w with
        pools := Function.update w.pools t s
        retainCount := World.release classes w.retainCount (World.releases es)
        owners := fun o => w.owners o - (handedOver act).count o } := by
  rw [World.step] at h
  cases hstep : (w.pools t).step classes.isConstant act with
  | none => simp [hstep] at h
  | some result =>
    simp only [hstep] at h
    split at h
    case isFalse => cases h
    case isTrue hguard =>
      obtain ⟨rfl, rfl⟩ := Prod.mk.inj (Option.some.inj h)
      exact ⟨hguard.1, _, rfl, rfl⟩

omit [Fintype Thread] in
theorem step_alloc_eq {o : Obj} {isThreadsafe : Bool}
    (h : w.step classes (t, .alloc o isThreadsafe) = some (es, w')) :
    (w.retainCount o = 0 ∧ classes.isConstant o = false) ∧
      w' = { w with
        retainCount := Function.update w.retainCount o 1
        owners := Function.update w.owners o (w.owners o + 1)
        threadId := Function.update w.threadId o
          (if isThreadsafe then .isThreadsafe else .thread t) } := by
  rw [World.step] at h
  split at h
  case isFalse => cases h
  case isTrue hguard => exact ⟨hguard, (Prod.mk.inj (Option.some.inj h)).2.symm⟩

omit [Fintype Thread] in
theorem step_retain_eq {o : Obj} (h : w.step classes (t, .retain o) = some (es, w')) :
    0 < w.retainCount o ∧
      w' = { w with
        retainCount := w.retain classes o
        owners := Function.update w.owners o (w.owners o + 1) } := by
  rw [World.step] at h
  split at h
  case isFalse => cases h
  case isTrue hlive => exact ⟨hlive, (Prod.mk.inj (Option.some.inj h)).2.symm⟩

omit [Fintype Thread] in
theorem step_release_eq {o : Obj} (h : w.step classes (t, .release o) = some (es, w')) :
    0 < w.owners o ∧
      w' = { w with
        retainCount := World.release classes w.retainCount fun p => if p = o then 1 else 0
        owners := Function.update w.owners o (w.owners o - 1) } := by
  rw [World.step] at h
  split at h
  case isFalse => cases h
  case isTrue howned => exact ⟨howned, (Prod.mk.inj (Option.some.inj h)).2.symm⟩

/-- Work on the pools. -/
theorem sound_pool {act : Pool.Act Obj} (hw : w.Sound classes)
    (hpools : handedOver act ≠ [] → (w.pools t).config.pools ≠ [])
    (h : w.step classes (t, .pool act) = some (es, w')) : w'.Sound classes := by
  obtain ⟨hguard, s, hstep, rfl⟩ := step_pool_eq h
  refine ⟨sound_update hw ((step_change hstep).sound (hw.pools t)), ?_,
    hw.relinquished_le, ?_⟩
  · intro o ho
    have hbal := hw.balanced o ho
    have hpend := pending_step hstep (hw.pools t) o
    rw [additions_step hstep ho hpools] at hpend
    have hsum := sum_pending_update w.pools t s o
    have hle := pending_le w t o
    have howners : (handedOver act).count o ≤ w.owners o := by
      by_cases hmem : o ∈ handedOver act
      · exact hguard o hmem
      · rw [List.count_eq_zero.mpr hmem]
        exact Nat.zero_le _
    simp only [World.Balanced, World.pending, release_of_counted ho] at hbal hle ⊢
    omega
  · intro o ho hpos hid hstrategy
    simp only [release_of_counted ho] at hpos
    exact hw.affine o ho (by omega) hid hstrategy

/-- A new object. -/
theorem sound_alloc {o : Obj} {isThreadsafe : Bool} (hw : w.Sound classes)
    (h : w.step classes (t, .alloc o isThreadsafe) = some (es, w')) : w'.Sound classes := by
  obtain ⟨hguard, rfl⟩ := step_alloc_eq h
  have hzero := hw.balanced o hguard.2
  rw [World.Balanced, hguard.1] at hzero
  refine ⟨hw.pools, ?_, hw.relinquished_le, ?_⟩
  · intro p hp
    have hbal := hw.balanced p hp
    simp only [World.Balanced, World.pending] at hbal hzero ⊢
    by_cases hpo : p = o
    · subst hpo
      simp only [Function.update_self]
      omega
    · simpa [hpo] using hbal
  · intro p hp hpos hid hstrategy
    simp only [World.Affine] at hid hpos ⊢
    by_cases hpo : p = o
    · subst hpo
      simp only [Function.update_self] at hid ⊢
      cases isThreadsafe with
      | true => exact absurd rfl hid
      | false => simp; omega
    · simp only [Function.update_of_ne hpo] at hid hpos ⊢
      exact hw.affine p hp hpos hid hstrategy

/-- A further reference. -/
theorem sound_retain {o : Obj} (hw : w.Sound classes)
    (h : w.step classes (t, .retain o) = some (es, w')) : w'.Sound classes := by
  obtain ⟨hlive, rfl⟩ := step_retain_eq h
  refine ⟨hw.pools, ?_, hw.relinquished_le, ?_⟩
  · intro p hp
    have hbal := hw.balanced p hp
    simp only [World.Balanced, World.pending, retain_of_counted w hp] at hbal ⊢
    by_cases hpo : p = o
    · subst hpo
      simp only [Function.update_self, if_true]
      omega
    · simpa [hpo] using hbal
  · intro p hp hpos hid hstrategy
    simp only [retain_of_counted w hp] at hpos
    refine hw.affine p hp ?_ hid hstrategy
    by_cases hpo : p = o
    · rwa [hpo]
    · simpa [hpo] using hpos

/-- A reference less. -/
theorem sound_release {o : Obj} (hw : w.Sound classes)
    (h : w.step classes (t, .release o) = some (es, w')) : w'.Sound classes := by
  obtain ⟨howned, rfl⟩ := step_release_eq h
  refine ⟨hw.pools, ?_, hw.relinquished_le, ?_⟩
  · intro p hp
    have hbal := hw.balanced p hp
    simp only [World.Balanced, World.pending, release_of_counted hp] at hbal ⊢
    by_cases hpo : p = o
    · subst hpo
      simp only [Function.update_self, if_true]
      omega
    · simpa [hpo] using hbal
  · intro p hp hpos hid hstrategy
    simp only [release_of_counted hp] at hpos
    exact hw.affine p hp (by omega) hid hstrategy

omit [Fintype Thread] in
/-- A relinquish, with what it does to the pools and the thread id. -/
theorem step_relinquish {o : Obj}
    (h : w.step classes (t, .relinquish o) = some (es, w')) :
    0 < w.retainCount o ∧ w.relinquished o = 0 ∧
    ∃ s, ((s = w.pools t ∧ es = []) ∨ ∃ owners, (es, s) = (w.pools t).releaseObjects [o] owners) ∧
      w' = { w with
        pools := Function.update w.pools t s
        retainCount := World.release classes (w.retain classes o) (World.releases es)
        threadId := w'.threadId
        relinquished := Function.update w.relinquished o (w.relinquished o + 1) } ∧
      (∀ p ≠ o, w'.threadId p = w.threadId p) ∧
      (w.threadId o = .isThreadsafe → w'.threadId o = .isThreadsafe) ∧
      (w.threadId o ≠ .isThreadsafe → ¬ (classes.strategy o).IsKnownThreadSafe →
        w'.threadId o = .hasNoThread) := by
  rw [World.step] at h
  split at h
  case isFalse => cases h
  case isTrue hguard =>
    refine ⟨hguard.2.1, hguard.2.2.1, ?_⟩
    dsimp only at h
    cases hremoval : removal (classes.strategy o) (w.threadId o) with
    | none =>
      rw [hremoval] at h
      obtain ⟨rfl, rfl⟩ := Prod.mk.inj (Option.some.inj h)
      refine ⟨w.pools t, .inl ⟨rfl, rfl⟩, ?_, fun _ _ => rfl, id, fun hid hstrategy => ?_⟩
      · rw [Function.update_eq_self, release_nil]
      · exact absurd hremoval (removal_ne_none hid hstrategy)
    | some search =>
      rw [hremoval] at h
      have hid : ∀ p ≠ o, Function.update w.threadId o .hasNoThread p = w.threadId p :=
        fun p hp => Function.update_of_ne hp _ _
      have hsafe : w.threadId o ≠ .isThreadsafe := by
        intro hsafe
        rw [hsafe, removal_of_isThreadsafe] at hremoval
        cases hremoval
      cases search with
      | none =>
        obtain ⟨rfl, rfl⟩ := Prod.mk.inj (Option.some.inj h)
        exact ⟨w.pools t, .inl ⟨rfl, rfl⟩, rfl, hid, fun h => absurd h hsafe,
          fun _ _ => Function.update_self ..⟩
      | some owners =>
        obtain ⟨rfl, rfl⟩ := Prod.mk.inj (Option.some.inj h)
        exact ⟨_, .inr ⟨owners, rfl⟩, rfl, hid, fun h => absurd h hsafe,
          fun _ _ => Function.update_self ..⟩

omit [Fintype Thread] in
/-- A gain, with what it does to the pools and the thread id. -/
theorem step_gain_eq {o : Obj} (h : w.step classes (t, .gain o) = some (es, w')) :
    0 < w.relinquished o ∧
    ∃ s, (w.pools t).step classes.isConstant (.autorelease o) = some (es, s) ∧
      w' = { w with
        pools := Function.update w.pools t s
        threadId :=
          Function.update w.threadId o (gainedId (classes.strategy o) (w.threadId o) t)
        relinquished := Function.update w.relinquished o (w.relinquished o - 1) } := by
  rw [World.step] at h
  split at h
  case isFalse => cases h
  case isTrue hguard =>
    cases hstep : (w.pools t).step classes.isConstant (.autorelease o) with
    | none => simp [hstep] at h
    | some result =>
      simp only [hstep] at h
      obtain ⟨rfl, rfl⟩ := Prod.mk.inj (Option.some.inj h)
      exact ⟨hguard, _, rfl, rfl⟩

omit [Fintype Thread] in
/-- Who has access to an object changes when it is created, relinquished and gained only. -/
theorem step_access {o : Obj} {act : Act Obj} (halloc : ∀ isThreadsafe, act ≠ .alloc o isThreadsafe)
    (hrelinquish : act ≠ .relinquish o) (hgain : act ≠ .gain o)
    (h : w.step classes (t, act) = some (es, w')) :
    w'.threadId o = w.threadId o ∧ w'.relinquished o = w.relinquished o := by
  cases act with
  | pool act =>
    obtain ⟨-, s, -, rfl⟩ := step_pool_eq h
    exact ⟨rfl, rfl⟩
  | alloc p isThreadsafe =>
    have hne : o ≠ p := by
      rintro rfl
      exact halloc isThreadsafe rfl
    obtain ⟨-, rfl⟩ := step_alloc_eq h
    exact ⟨Function.update_of_ne hne _ _, rfl⟩
  | retain p =>
    obtain ⟨-, rfl⟩ := step_retain_eq h
    exact ⟨rfl, rfl⟩
  | release p =>
    obtain ⟨-, rfl⟩ := step_release_eq h
    exact ⟨rfl, rfl⟩
  | relinquish p =>
    have hne : o ≠ p := by
      rintro rfl
      exact hrelinquish rfl
    obtain ⟨-, -, s, -, hw', hids, -⟩ := step_relinquish h
    refine ⟨hids o hne, ?_⟩
    rw [hw']
    exact Function.update_of_ne hne _ _
  | gain p =>
    have hne : o ≠ p := by
      rintro rfl
      exact hgain rfl
    obtain ⟨-, s, -, rfl⟩ := step_gain_eq h
    exact ⟨Function.update_of_ne hne _ _, Function.update_of_ne hne _ _⟩

omit [DecidableEq Thread] [Fintype Thread] in
theorem retain_of_constant {o : Obj} (ho : classes.isConstant o = true) (p : Obj) :
    w.retain classes p o = w.retainCount o := by
  rw [World.retain]
  split_ifs with hp
  · rfl
  · refine Function.update_of_ne ?_ _ _
    rintro rfl
    exact hp ho

omit [Fintype Thread] in
/-- The retain count of a constant is pinned. -/
theorem retainCount_of_constant {o : Obj} (ho : classes.isConstant o = true) {act : Act Obj}
    (h : w.step classes (t, act) = some (es, w')) : w'.retainCount o = w.retainCount o := by
  cases act with
  | pool act =>
    obtain ⟨-, s, -, rfl⟩ := step_pool_eq h
    simp [World.release, ho]
  | alloc p isThreadsafe =>
    obtain ⟨hguard, rfl⟩ := step_alloc_eq h
    refine Function.update_of_ne ?_ _ _
    rintro rfl
    simp [ho] at hguard
  | retain p =>
    obtain ⟨-, rfl⟩ := step_retain_eq h
    exact retain_of_constant ho p
  | release p =>
    obtain ⟨-, rfl⟩ := step_release_eq h
    simp [World.release, ho]
  | relinquish p =>
    obtain ⟨-, -, s, -, hw', -⟩ := step_relinquish h
    rw [hw']
    exact (if_pos ho).trans (retain_of_constant ho p)
  | gain p =>
    obtain ⟨-, s, -, rfl⟩ := step_gain_eq h
    rfl

/-- Giving up access adds a reference and moves the entries of the object out of the pools. -/
theorem sound_relinquish {o : Obj} (hw : w.Sound classes)
    (h : w.step classes (t, .relinquish o) = some (es, w')) : w'.Sound classes := by
  obtain ⟨hpos, hrel, s, hs, hw', hids, hsafe, hid⟩ := step_relinquish h
  have hsound : s.Sound := by
    obtain ⟨rfl, -⟩ | ⟨owners, hs⟩ := hs
    · exact hw.pools t
    · rw [(Prod.mk.inj hs).2]
      exact sound_releaseObjects (hw.pools t) [o] owners
  have hpend : ∀ p, World.releases es p + pending s p = pending (w.pools t) p := by
    intro p
    obtain ⟨rfl, rfl⟩ | ⟨owners, hs⟩ := hs
    · exact Nat.zero_add _
    · obtain ⟨rfl, rfl⟩ := Prod.mk.inj hs
      exact pending_removal (w.pools t) [o] owners p
  refine ⟨?_, ?_, ?_, ?_⟩
  · rw [hw']
    exact sound_update hw hsound
  · intro p hp
    have hbal := hw.balanced p hp
    have hsum := sum_pending_update w.pools t s p
    have hle := pending_le w t p
    have := hpend p
    rw [hw']
    simp only [World.Balanced, World.pending, release_of_counted hp, retain_of_counted w hp]
      at hbal hle ⊢
    by_cases hpo : p = o
    · subst hpo
      simp only [if_true, Function.update_self]
      omega
    · simp only [hpo, if_false, Function.update_of_ne hpo]
      omega
  · intro p
    rw [hw']
    by_cases hpo : p = o
    · subst hpo
      simp [hrel]
    · simpa [hpo] using hw.relinquished_le p
  · intro p hp hpos' hne hstrategy
    have hrelinquished : w'.relinquished =
        Function.update w.relinquished o (w.relinquished o + 1) := by rw [hw']
    rw [World.Affine, hrelinquished]
    by_cases hpo : p = o
    · subst hpo
      rw [hid (fun h => hne (hsafe h)) hstrategy, Function.update_self]
      simp
    · rw [Function.update_of_ne hpo, hids p hpo]
      rw [hids p hpo] at hne
      refine hw.affine p hp ?_ hne hstrategy
      rw [hw'] at hpos'
      simp only [release_of_counted hp, retain_of_counted w hp, hpo, if_false] at hpos'
      omega

/-- Gaining access hands the added reference over to the current pool. -/
theorem sound_gain {o : Obj} (hw : w.Sound classes) (hpools : (w.pools t).config.pools ≠ [])
    (h : w.step classes (t, .gain o) = some (es, w')) : w'.Sound classes := by
  obtain ⟨hguard, s, hstep, rfl⟩ := step_gain_eq h
  have hone := hw.relinquished_le o
  refine ⟨sound_update hw ((step_change hstep).sound (hw.pools t)), ?_, ?_, ?_⟩
  · intro p hp
    have hbal := hw.balanced p hp
    have hpend := pending_step hstep (hw.pools t) p
    rw [additions_step hstep hp fun _ => hpools, releases_autorelease hstep, handedOver,
      List.count_singleton] at hpend
    have hsum := sum_pending_update w.pools t s p
    simp only [World.Balanced, World.pending] at hbal ⊢
    by_cases hpo : p = o
    · subst hpo
      simp only [beq_self_eq_true, if_true, Function.update_self] at hpend ⊢
      omega
    · simp only [beq_iff_eq, Ne.symm hpo, if_false, Function.update_of_ne hpo] at hpend ⊢
      omega
  · intro p
    by_cases hpo : p = o
    · subst hpo
      simp only [Function.update_self]
      omega
    · simpa [hpo] using hw.relinquished_le p
  · intro p hp hpos hne hstrategy
    simp only [World.Affine] at hne ⊢
    by_cases hpo : p = o
    · subst hpo
      simp only [Function.update_self] at hne ⊢
      have hid : w.threadId p ≠ .isThreadsafe := by
        intro hid
        rw [hid, gainedId_of_isThreadsafe] at hne
        exact hne rfl
      rw [gainedId_eq hid hstrategy]
      simp
      omega
    · simp only [Function.update_of_ne hpo] at hne ⊢
      exact hw.affine p hp hpos hne hstrategy

/-- Every step with a pool in place keeps the books. -/
theorem sound_step {act : Thread × Act Obj} (hw : w.Sound classes) (hplace : w.PoolInPlace act)
    (h : w.step classes act = some (es, w')) : w'.Sound classes := by
  obtain ⟨t, act⟩ := act
  cases act with
  | pool act => exact sound_pool hw hplace h
  | alloc o isThreadsafe => exact sound_alloc hw h
  | retain o => exact sound_retain hw h
  | release o => exact sound_release hw h
  | relinquish o => exact sound_relinquish hw h
  | gain o => exact sound_gain hw hplace h

omit [DecidableEq Thread] in
theorem sound_init (hasMap : Bool) (threadId : Obj → ThreadId Thread) :
    (World.init classes hasMap threadId).Sound classes where
  pools := fun _ => Pool.sound_init hasMap
  balanced := by
    intro o ho
    simp [World.Balanced, World.init, ho, World.pending, pending, State.pending, State.init,
      pendingIn]
  relinquished_le := fun _ => Nat.zero_le 1
  affine := by
    intro o ho hpos
    simp [World.init, ho] at hpos

/-- In every run with pools in place, the retain count of a counted object is the number of
references that code holds, of its entries in all pools of all threads and of its
relinquishes that were not gained yet; so it lives while it is relinquished. If it belongs
to one thread at a time, it has no thread exactly while it is relinquished and else the id
of one thread. -/
theorem access_balance (classes : Classes Obj) (hasMap : Bool) (threadId : Obj → ThreadId Thread)
    {w : World Thread Obj} {es : List (Event Obj)}
    (hrun : RunWhile (World.step classes) World.PoolInPlace (World.init classes hasMap threadId)
      es w) {o : Obj} (ho : classes.isConstant o = false) :
    w.retainCount o = w.owners o + ∑ t, (w.pools t).pending (fun _ => true) o + w.relinquished o ∧
    (0 < w.relinquished o → 0 < w.retainCount o) ∧
    (0 < w.retainCount o → w.threadId o ≠ .isThreadsafe →
      ¬ (classes.strategy o).IsKnownThreadSafe →
      (w.threadId o = .hasNoThread ↔ 0 < w.relinquished o) ∧
      (w.relinquished o = 0 → ∃! t, w.threadId o = .thread t)) := by
  have hw : w.Sound classes :=
    hrun.invariant (World.Sound classes) (fun hplace hw hstep => sound_step hw hplace hstep)
      (sound_init hasMap threadId)
  have hbal := hw.balanced o ho
  refine ⟨hbal, fun hrel => ?_, fun hpos hid hstrategy => ?_⟩
  · rw [hbal]
    omega
  · have haffine := hw.affine o ho hpos hid hstrategy
    refine ⟨haffine, fun hrel => ?_⟩
    cases hthread : w.threadId o with
    | isThreadsafe => exact absurd hthread hid
    | hasNoThread =>
      have := haffine.mp hthread
      omega
    | thread t => exact ⟨t, rfl, fun u hu => (ThreadId.thread.inj hu).symm⟩

end Sums

/-- The object `0` is a constant. -/
def oneConstant : Classes ℕ := ⟨fun o => o == 0, fun _ => .callerRemovesFromCurrentPool⟩

/-- A relinquished constant is not retained, and a gain without a pool leaks the reference
the relinquish added. -/
theorem access_unbalanced :
    (∃ (w : World Bool ℕ) (es : List (Event ℕ)),
      Run (World.step oneConstant) (.init oneConstant false fun _ => .isThreadsafe) es w ∧
        w.retainCount 0 = w.owners 0 ∧ w.relinquished 0 = 1) ∧
    (∃ (w : World Bool ℕ) (es : List (Event ℕ)),
      Run (World.step oneConstant) (.init oneConstant false fun _ => .isThreadsafe) es w ∧
        w.retainCount 1 = 2 ∧ w.owners 1 = 1 ∧ (∑ t, (w.pools t).pending (fun _ => true) 1) = 0 ∧
        w.relinquished 1 = 0) ∧
    ¬ ∀ (classes : Classes ℕ) (hasMap : Bool) (threadId : ℕ → ThreadId Bool) (w : World Bool ℕ)
      (es : List (Event ℕ)), Run (World.step classes) (.init classes hasMap threadId) es w →
      ∀ o, w.retainCount o =
        w.owners o + ∑ t, (w.pools t).pending (fun _ => true) o + w.relinquished o := by
  have hconstant : ∃ (w : World Bool ℕ) (es : List (Event ℕ)),
      Run (World.step oneConstant) (.init oneConstant false fun _ => .isThreadsafe) es w ∧
        w.retainCount 0 = w.owners 0 ∧ w.relinquished 0 = 1 :=
    ⟨_, _, (RunWhile.refl _).tail (true, .relinquish 0) trivial rfl, rfl, rfl⟩
  refine ⟨hconstant, ⟨_, _, (((RunWhile.refl _).tail (true, .alloc 1 false) trivial rfl).tail
    (true, .relinquish 1) trivial rfl).tail (false, .gain 1) trivial rfl, rfl, rfl, rfl, rfl⟩, ?_⟩
  obtain ⟨w, es, hrun, hcount, hrel⟩ := hconstant
  intro hclaim
  have := hclaim oneConstant false (fun _ => .isThreadsafe) w es hrun 0
  omega

/-- An object is relinquished out of the only pool that holds it. -/
theorem relinquished_lives :
    ∃ (w : World Bool ℕ) (es : List (Event ℕ)),
      RunWhile (World.step oneConstant) World.PoolInPlace
        (.init oneConstant false fun _ => .isThreadsafe) es w ∧
      w.owners 1 = 0 ∧ w.relinquished 1 = 1 ∧ 0 < w.retainCount 1 := by
  have hrun : ∃ (w : World Bool ℕ) (es : List (Event ℕ)),
      RunWhile (World.step oneConstant) World.PoolInPlace
        (.init oneConstant false fun _ => .isThreadsafe) es w ∧
      w.owners 1 = 0 ∧ w.relinquished 1 = 1 :=
    ⟨_, _, ((((RunWhile.refl _).tail (true, .pool .push) (fun h => absurd rfl h) rfl).tail
      (true, .alloc 1 false) trivial rfl).tail
      (true, .pool (.autorelease 1)) (fun _ => List.cons_ne_nil _ _) rfl).tail
      (true, .relinquish 1) trivial rfl, rfl, rfl⟩
  obtain ⟨w, es, hrun, howners, hrel⟩ := hrun
  have hcounted : oneConstant.isConstant 1 = false := rfl
  obtain ⟨-, hlives, -⟩ := access_balance oneConstant false (fun _ => .isThreadsafe) hrun hcounted
  exact ⟨w, es, hrun, howners, hrel, hlives (by omega)⟩

end MulleObjC.Access
