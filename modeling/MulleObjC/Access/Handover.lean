import MulleObjC.Access.Balance
import MulleObjC.Access.Transfer

/-!
# Handing over a graph of objects

One thread relinquishes access to some objects, another one gains it. The references and
the affinity of all of them are handed over. Both threads find the same objects if they
start from the same root.
-/

namespace MulleObjC.Access

open Pool Machine

section World

variable {Thread Obj : Type*} {classes : Classes Obj} {w w' w'' : World Thread Obj}
  {t : Thread} {o p : Obj} {os : List Obj}

/-- The threads run the same functions and have the same pools. -/
structure World.SameCalls (w w' : World Thread Obj) : Prop where
  frames : ∀ t, (w'.pools t).frames = (w.pools t).frames
  addresses : ∀ t, addresses (w'.pools t).config.pools = addresses (w.pools t).config.pools

theorem World.SameCalls.trans (h : w.SameCalls w') (h' : w'.SameCalls w'') : w.SameCalls w'' :=
  ⟨fun t => (h'.frames t).trans (h.frames t), fun t => (h'.addresses t).trans (h.addresses t)⟩

theorem World.SameCalls.runsCode (h : w.SameCalls w') (t : Thread) :
    RunsCode (w'.pools t) = RunsCode (w.pools t) := by
  unfold RunsCode
  rw [h.frames t]

/-- A thread that has a pool in place keeps it. -/
theorem World.SameCalls.pools_ne_nil (h : w.SameCalls w') :
    (w'.pools t).config.pools ≠ [] ↔ (w.pools t).config.pools ≠ [] := by
  rw [← List.length_pos_iff, ← List.length_pos_iff, ← length_addresses, ← length_addresses,
    h.addresses t]

/-- The pools of one thread change. -/
theorem World.sameCalls_update [DecidableEq Thread] {s : Pool.State Obj}
    (hframes : s.frames = (w.pools t).frames)
    (haddresses : Pool.addresses s.config.pools = Pool.addresses (w.pools t).config.pools)
    (hpools : w'.pools = Function.update w.pools t s) : w.SameCalls w' := by
  constructor
  all_goals
    intro u
    rw [hpools]
    by_cases hu : u = t
    · subst hu
      simpa
    · simp [hu]

variable [DecidableEq Thread] [DecidableEq Obj]

/-- One thread has given up access to some objects. -/
structure World.Relinquished (classes : Classes Obj) (w : World Thread Obj) (os : List Obj)
    (w' : World Thread Obj) : Prop where
  calls : w.SameCalls w'
  owners : w'.owners = w.owners
  relinquished : ∀ o, w'.relinquished o = w.relinquished o + os.count o
  retainCount_of_notMem : ∀ o ∉ os, w'.retainCount o = w.retainCount o
  threadId_of_notMem : ∀ o ∉ os, w'.threadId o = w.threadId o
  gainedId : ∀ o u, gainedId (classes.strategy o) (w'.threadId o) u =
    gainedId (classes.strategy o) (w.threadId o) u

theorem relinquished_nil (w : World Thread Obj) : w.Relinquished classes [] w where
  calls := ⟨fun _ => rfl, fun _ => rfl⟩
  owners := rfl
  relinquished _ := rfl
  retainCount_of_notMem _ _ := rfl
  threadId_of_notMem _ _ := rfl
  gainedId _ _ := rfl

/-- One object and then others. -/
theorem World.Relinquished.cons (h : w.Relinquished classes [o] w')
    (h' : w'.Relinquished classes os w'') : w.Relinquished classes (o :: os) w'' where
  calls := h.calls.trans h'.calls
  owners := h'.owners.trans h.owners
  relinquished p := by
    rw [h'.relinquished, h.relinquished]
    simp only [List.count_cons, List.count_nil]
    omega
  retainCount_of_notMem p hp := by
    obtain ⟨hpo, hpos⟩ := not_or.mp (mt List.mem_cons.mpr hp)
    rw [h'.retainCount_of_notMem p hpos, h.retainCount_of_notMem p (by simpa using hpo)]
  threadId_of_notMem p hp := by
    obtain ⟨hpo, hpos⟩ := not_or.mp (mt List.mem_cons.mpr hp)
    rw [h'.threadId_of_notMem p hpos, h.threadId_of_notMem p (by simpa using hpo)]
  gainedId p u := (h'.gainedId p u).trans (h.gainedId p u)

/-- A thread can relinquish an object that it has access to. -/
structure World.CanRelinquish (classes : Classes Obj) (w : World Thread Obj) (t : Thread)
    (o : Obj) : Prop where
  retainCount_pos : 0 < w.retainCount o
  relinquished_eq : w.relinquished o = 0
  hasAccess : HasAccess (classes.strategy o) (w.threadId o) t

omit [DecidableEq Thread] in
/-- Removals change only what they are called for. -/
theorem release_retain (hpo : p ≠ o) {es : List (Event Obj)} (hes : World.releases es p = 0) :
    World.release classes (w.retain classes o) (World.releases es) p = w.retainCount p := by
  have hretain : w.retain classes o p = w.retainCount p := by
    unfold World.retain
    split
    · rfl
    · exact Function.update_of_ne hpo _ _
  unfold World.release
  split
  · exact hretain
  · rw [hretain, hes, Nat.sub_zero]

omit [DecidableEq Obj] in
/-- A relinquish that changes the thread id does not change what a gain sets it to. -/
theorem gainedId_hasNoThread {strategy : TAOStrategy} {id : ThreadId Thread}
    (hremoval : removal strategy id ≠ none) (u : Thread) :
    gainedId strategy .hasNoThread u = gainedId strategy id u := by
  by_cases hid : id = .isThreadsafe
  · rw [hid, removal_of_isThreadsafe] at hremoval
    exact absurd rfl hremoval
  · cases strategy <;> simp_all [gainedId, removal]

/-- A removal of one object leaves the calls of its thread alone. -/
theorem exists_relinquish (hcode : RunsCode (w.pools t))
    (ho : w.CanRelinquish classes t o) :
    ∃ es w', w.step classes (t, .relinquish o) = some (es, w') ∧
      w.Relinquished classes [o] w' := by
  have hcount : ∀ p, Function.update w.relinquished o (w.relinquished o + 1) p =
      w.relinquished p + [o].count p := by
    intro p
    by_cases hpo : p = o
    · subst hpo
      simp
    · simp [hpo, Ne.symm hpo]
  have hnone : ∀ p ∉ [o], World.release classes (w.retain classes o) (World.releases []) p =
      w.retainCount p := fun p hp => release_retain (by simpa using hp) rfl
  have hthread : ∀ p ∉ [o], Function.update w.threadId o .hasNoThread p = w.threadId p :=
    fun p hp => Function.update_of_ne (by simpa using hp) _ _
  rw [World.step, if_pos ⟨hcode, ho.retainCount_pos, ho.relinquished_eq, ho.hasAccess⟩]
  dsimp only
  cases hremoval : removal (classes.strategy o) (w.threadId o) with
  | none =>
    rw [release_nil] at hnone
    exact ⟨_, _, rfl, ⟨fun _ => rfl, fun _ => rfl⟩, rfl, hcount, hnone, fun _ _ => rfl,
      fun _ _ => rfl⟩
  | some search =>
    have hgained : ∀ p u, gainedId (classes.strategy p)
        (Function.update w.threadId o .hasNoThread p) u =
          gainedId (classes.strategy p) (w.threadId p) u := by
      intro p u
      by_cases hpo : p = o
      · subst hpo
        rw [Function.update_self]
        exact gainedId_hasNoThread (by simp [hremoval]) u
      · rw [Function.update_of_ne hpo]
    cases search with
    | none =>
      refine ⟨_, _, rfl, ?_, rfl, hcount, hnone, hthread, hgained⟩
      exact World.sameCalls_update rfl rfl rfl
    | some owners =>
      refine ⟨_, _, rfl, ?_, rfl, hcount, fun p hp => ?_, hthread, hgained⟩
      · exact World.sameCalls_update (s := ((w.pools t).releaseObjects [o] owners).2) rfl
          (addresses_releaseObjects [o] owners (w.pools t).config.pools) rfl
      · refine release_retain (by simpa using hp) ?_
        exact countP_isReleased_releaseObjects hp owners _

/-- A thread that has access to some objects can relinquish them, one after the other. -/
theorem exec_relinquish [Fintype Thread] (hw : w.Sound classes)
    (hcode : RunsCode (w.pools t)) (hnodup : os.Nodup)
    (hos : ∀ o ∈ os, w.CanRelinquish classes t o) :
    ∃ es w', exec (World.step classes) w (os.map fun o => (t, .relinquish o)) = some (es, w') ∧
      w.Relinquished classes os w' ∧ w'.Sound classes := by
  induction os generalizing w with
  | nil => exact ⟨[], w, rfl, relinquished_nil w, hw⟩
  | cons o os ih =>
    obtain ⟨ho, hnodup⟩ := List.nodup_cons.mp hnodup
    obtain ⟨ho', hos⟩ := List.forall_mem_cons.mp hos
    obtain ⟨es, w₁, hstep, hfirst⟩ := exists_relinquish hcode ho'
    have hleft : ∀ p ∈ os, w₁.CanRelinquish classes t p := by
      intro p hp
      have hpo : p ∉ [o] := by
        rintro hmem
        exact ho (List.mem_singleton.mp hmem ▸ hp)
      refine ⟨?_, ?_, ?_⟩
      · rw [hfirst.retainCount_of_notMem p hpo]
        exact (hos p hp).retainCount_pos
      · rw [hfirst.relinquished, (hos p hp).relinquished_eq, List.count_eq_zero.mpr hpo]
      · rw [hfirst.threadId_of_notMem p hpo]
        exact (hos p hp).hasAccess
    obtain ⟨fs, w₂, hexec, hrest, hsound⟩ :=
      ih (sound_relinquish hw hstep) ((hfirst.calls.runsCode t).trans hcode) hnodup hleft
    exact ⟨es ++ fs, w₂, by simp [exec, hstep, hexec], hfirst.cons hrest, hsound⟩

/-- One thread has gained access to some objects. -/
structure World.Gained (classes : Classes Obj) (w : World Thread Obj) (u : Thread) (os : List Obj)
    (w' : World Thread Obj) : Prop where
  calls : w.SameCalls w'
  owners : w'.owners = w.owners
  relinquished : ∀ o, w'.relinquished o + os.count o = w.relinquished o
  threadId_of_notMem : ∀ o ∉ os, w'.threadId o = w.threadId o
  threadId_of_mem : ∀ o ∈ os, w'.threadId o = gainedId (classes.strategy o) (w.threadId o) u

theorem gained_nil (w : World Thread Obj) (u : Thread) : w.Gained classes u [] w where
  calls := ⟨fun _ => rfl, fun _ => rfl⟩
  owners := rfl
  relinquished _ := rfl
  threadId_of_notMem _ _ := rfl
  threadId_of_mem _ h := by cases h

/-- One object and then others. -/
theorem World.Gained.cons {u : Thread} (ho : o ∉ os) (h : w.Gained classes u [o] w')
    (h' : w'.Gained classes u os w'') : w.Gained classes u (o :: os) w'' where
  calls := h.calls.trans h'.calls
  owners := h'.owners.trans h.owners
  relinquished p := by
    rw [← h.relinquished, ← h'.relinquished]
    simp only [List.count_cons, List.count_nil]
    omega
  threadId_of_notMem p hp := by
    obtain ⟨hpo, hpos⟩ := not_or.mp (mt List.mem_cons.mpr hp)
    rw [h'.threadId_of_notMem p hpos, h.threadId_of_notMem p (by simpa using hpo)]
  threadId_of_mem p hp := by
    rcases List.mem_cons.mp hp with rfl | hpos
    · rw [h'.threadId_of_notMem p ho, h.threadId_of_mem p (List.mem_singleton_self p)]
    · have hpo : p ∉ [o] := fun hmem => ho (List.mem_singleton.mp hmem ▸ hpos)
      rw [h'.threadId_of_mem p hpos, h.threadId_of_notMem p hpo]

omit [DecidableEq Thread] in
/-- Code can autorelease an object. That leaves its calls alone. -/
theorem exists_autorelease (isConstant : Obj → Bool) {s : Pool.State Obj} (hcode : RunsCode s)
    (o : Obj) : ∃ es s', s.step isConstant (.autorelease o) = some (es, s') ∧
      s'.frames = s.frames ∧ addresses s'.config.pools = addresses s.config.pools := by
  have haddresses : addresses (s.config.autoreleaseObject isConstant o).pools =
      addresses s.config.pools := by
    unfold PoolConfiguration.autoreleaseObject
    split
    · rfl
    · split <;> simp_all [addresses]
  refine ⟨s.addedEvents (if isConstant o then [] else [o]),
    { s with config := s.config.autoreleaseObject isConstant o }, ?_, rfl, haddresses⟩
  unfold RunsCode at hcode
  split at hcode
  · next hframes =>
    simp only [State.step, State.call, hframes]
  · next floor rest hframes =>
    simp only [State.step, State.call, hframes]
  · cases hcode

/-- A gain of one object. -/
theorem exists_gain {u : Thread} (hcode : RunsCode (w.pools u)) (hrel : 0 < w.relinquished o) :
    ∃ es w', w.step classes (u, .gain o) = some (es, w') ∧ w.Gained classes u [o] w' := by
  obtain ⟨es, s, hstep, hframes, haddresses⟩ := exists_autorelease classes.isConstant hcode o
  rw [World.step, if_pos hrel, hstep]
  refine ⟨_, _, rfl, World.sameCalls_update hframes haddresses rfl, rfl, fun p => ?_,
    fun p hp => ?_, fun p hp => ?_⟩
  · by_cases hpo : p = o
    · subst hpo
      simp only [Function.update_self, List.count_singleton_self]
      omega
    · simp [hpo, Ne.symm hpo]
  · exact Function.update_of_ne (by simpa using hp) _ _
  · obtain rfl := List.mem_singleton.mp hp
    exact Function.update_self ..

/-- A thread can gain access to relinquished objects, one after the other. -/
theorem exec_gain [Fintype Thread] {u : Thread} (hw : w.Sound classes)
    (hcode : RunsCode (w.pools u)) (hpools : (w.pools u).config.pools ≠ []) (hnodup : os.Nodup)
    (hos : ∀ o ∈ os, 0 < w.relinquished o) :
    ∃ es w', exec (World.step classes) w (os.map fun o => (u, .gain o)) = some (es, w') ∧
      w.Gained classes u os w' ∧ w'.Sound classes := by
  induction os generalizing w with
  | nil => exact ⟨[], w, rfl, gained_nil w u, hw⟩
  | cons o os ih =>
    obtain ⟨ho, hnodup⟩ := List.nodup_cons.mp hnodup
    obtain ⟨ho', hos⟩ := List.forall_mem_cons.mp hos
    obtain ⟨es, w₁, hstep, hfirst⟩ : ∃ es w₁, w.step classes (u, .gain o) = some (es, w₁) ∧
        w.Gained classes u [o] w₁ := exists_gain hcode ho'
    have hleft : ∀ p ∈ os, 0 < w₁.relinquished p := by
      intro p hp
      have hpo : p ∉ [o] := fun hmem => ho (List.mem_singleton.mp hmem ▸ hp)
      have hcount := hfirst.relinquished p
      rw [List.count_eq_zero.mpr hpo] at hcount
      have := hos p hp
      omega
    obtain ⟨fs, w₂, hexec, hrest, hsound⟩ := ih (sound_gain hw hpools hstep)
      ((hfirst.calls.runsCode u).trans hcode) (hfirst.calls.pools_ne_nil.mpr hpools) hnodup hleft
    exact ⟨es ++ fs, w₂, by simp [exec, hstep, hexec], hfirst.cons ho hrest, hsound⟩

/-- The same objects are relinquished by one thread and gained by another one. -/
theorem exec_handover [Fintype Thread] {u : Thread} {gained : List Obj} (hw : w.Sound classes)
    (hcode : RunsCode (w.pools t)) (hcode' : RunsCode (w.pools u))
    (hpools : (w.pools u).config.pools ≠ []) (hnodup : os.Nodup) (hperm : gained.Perm os)
    (hos : ∀ o ∈ os, w.CanRelinquish classes t o) :
    ∃ es w₁ fs w₂,
      exec (World.step classes) w (os.map fun o => (t, .relinquish o)) = some (es, w₁) ∧
      exec (World.step classes) w₁ (gained.map fun o => (u, .gain o)) = some (fs, w₂) ∧
      w₁.Sound classes ∧ w₂.Sound classes ∧ w₁.owners = w.owners ∧ w₂.owners = w.owners ∧
      (∀ o, w₁.relinquished o = w.relinquished o + os.count o) ∧
      w₂.relinquished = w.relinquished ∧
      (∀ o ∈ os, w₂.threadId o = gainedId (classes.strategy o) (w.threadId o) u) ∧
      ∀ o ∉ os, w₁.threadId o = w.threadId o ∧ w₂.threadId o = w.threadId o := by
  obtain ⟨es, w₁, hexec, hfirst, hsound⟩ := exec_relinquish hw hcode hnodup hos
  have hrel : ∀ o ∈ gained, 0 < w₁.relinquished o := by
    intro o ho
    have hcount := List.count_pos_iff.mpr (hperm.mem_iff.mp ho)
    rw [hfirst.relinquished]
    omega
  obtain ⟨fs, w₂, hexec', hsecond, hsound'⟩ := exec_gain hsound
    ((hfirst.calls.runsCode u).trans hcode') (hfirst.calls.pools_ne_nil.mpr hpools)
    (hperm.nodup_iff.mpr hnodup) hrel
  refine ⟨es, w₁, fs, w₂, hexec, hexec', hsound, hsound', hfirst.owners,
    hsecond.owners.trans hfirst.owners, hfirst.relinquished, funext fun o => ?_, fun o ho => ?_,
    fun o ho => ?_⟩
  · have hcount := hsecond.relinquished o
    rw [hfirst.relinquished, hperm.count_eq] at hcount
    omega
  · rw [hsecond.threadId_of_mem o (hperm.mem_iff.mpr ho), hfirst.gainedId]
  · refine ⟨hfirst.threadId_of_notMem o ho, ?_⟩
    rw [hsecond.threadId_of_notMem o (mt hperm.mem_iff.mp ho), hfirst.threadId_of_notMem o ho]

end World

universe u

section Graph

variable {Obj Ivar : Type u} [DecidableEq Ivar] [DecidableEq Obj]

omit [DecidableEq Obj] in
/-- What a search visits is what the transfer reaches. -/
theorem reaches_children_iff (g : Graph Obj Ivar) {root o : Obj} :
    DepthFirst.Reaches g.children root o ↔ Relation.ReflTransGen g.Transfers root o := by
  have hchild : DepthFirst.Child g.children = g.Transfers := by
    funext x y
    exact propext g.mem_children_iff
  rw [DepthFirst.Reaches, hchild]

/-- The instances that the transfer reaches, one after the other. -/
structure Graph.Performs (g : Graph Obj Ivar) (root : Obj) (p : Progress Obj) : Prop where
  nodup : p.performed.Nodup
  mem_iff : ∀ o, o ∈ p.performed ↔ Relation.ReflTransGen g.Transfers root o ∧ g.isInstance o

/-- A message that does what a search from the root does returns and performs the transfer. -/
theorem performs_of_tracks [Fintype Obj] {g : Graph Obj Ivar} {root : Obj} {fuel : ℕ} {post : Bool}
    {message : Progress Obj → Result Obj (Progress Obj)} (hfuel : Fintype.card Obj ≤ fuel)
    (h : Tracks g message (DepthFirst.visit g.children post fuel root)) :
    ∃ p, message ⟨{some root}, []⟩ = .ok p ∧ g.Performs root p := by
  obtain ⟨seen, order, hvisit, hnodup, hmem⟩ :=
    DepthFirst.exists_search g.children post root hfuel
  have hmet : Progress.Met ⟨{some root}, []⟩ {root} := by
    intro o
    simp
  obtain ⟨p, hp, -, hperf⟩ := h _ _ seen order hmet hvisit
  have hperf' : p.performed = order.filter g.isInstance := by simpa using hperf
  refine ⟨p, hp, ?_, fun o => ?_⟩
  · rw [hperf']
    exact hnodup.filter _
  · rw [hperf', List.mem_filter, hmem, reaches_children_iff]

/-- Relinquishing and gaining access to a graph of objects with invocations whose slots are
walked right returns, and changes the affinity of every instance that it reaches once. The
objects that one thread relinquishes are then those that another thread gains, with the
references and the affinity handed over. -/
theorem graph_transfer {Thread : Type*} [DecidableEq Thread] [Fintype Thread] [Fintype Obj]
    (g : Graph Obj Ivar) (hright : g.WalkedRight) (root : Obj) {fuel : ℕ}
    (hfuel : Fintype.card Obj ≤ fuel) :
    ∃ p q, g.relinquishAccess fuel root = .ok p ∧ g.gainAccess fuel root = .ok q ∧
      g.Performs root p ∧ g.Performs root q ∧
      ∀ (w : World Thread Obj) (t u : Thread), w.Sound g.classes → RunsCode (w.pools t) →
        RunsCode (w.pools u) → (w.pools u).config.pools ≠ [] →
        (∀ o ∈ p.performed, w.CanRelinquish g.classes t o) →
        ∃ es w₁ fs w₂,
          exec (World.step g.classes) w (p.performed.map fun o => (t, .relinquish o)) =
            some (es, w₁) ∧
          exec (World.step g.classes) w₁ (q.performed.map fun o => (u, .gain o)) =
            some (fs, w₂) ∧
          w₁.Sound g.classes ∧ w₂.Sound g.classes ∧ w₁.owners = w.owners ∧ w₂.owners = w.owners ∧
          (∀ o, w₁.relinquished o = w.relinquished o + p.performed.count o) ∧
          w₂.relinquished = w.relinquished ∧
          (∀ o ∈ p.performed,
            w₂.threadId o = gainedId (g.classes.strategy o) (w.threadId o) u) ∧
          ∀ o ∉ p.performed, w₁.threadId o = w.threadId o ∧ w₂.threadId o = w.threadId o := by
  obtain ⟨p, hp, hperf⟩ :=
    performs_of_tracks hfuel (tracks_relinquishAccessWithUniquingSet hright fuel root)
  obtain ⟨q, hq, hperf'⟩ :=
    performs_of_tracks hfuel (tracks_gainAccessWithUniquingSet hright fuel root)
  refine ⟨p, q, hp, hq, hperf, hperf', fun w t u hw hcode hcode' hpools hos => ?_⟩
  have hperm : q.performed.Perm p.performed := by
    refine (List.perm_ext_iff_of_nodup hperf'.nodup hperf.nodup).mpr fun o => ?_
    rw [hperf.mem_iff, hperf'.mem_iff]
  exact exec_handover hw hcode hcode' hpools hperf.nodup hperm hos

end Graph

/-- An object and an invocation that has it as target, and a class object as argument. The
object refers to the invocation by an instance variable that backs two properties. -/
def cycle : Graph (Fin 3) (Fin 2) where
  isConstant _ := false
  kind := fun
    | 0 => .object
      { strategy := .callerRemovesFromCurrentPool
        properties := [⟨none, true, false⟩, ⟨some 0, true, false⟩, ⟨some 0, false, false⟩]
        ivars := [0, 1]
        isObject := fun _ => true
        value := fun ivar => if ivar = 0 then some 1 else none }
    | 1 => .invocation
      { strategy := .callerRemovesFromCurrentPool
        infos := [⟨80, .retainId⟩, ⟨0, .retainId⟩,
          ⟨8, .scalar ⟨4, 2, Invocation.Scalar.int_aligned⟩⟩,
          ⟨16, .struct [.scalar ⟨4, 2, Invocation.Scalar.int_aligned⟩, .copyId]⟩, ⟨32, .cls⟩]
        slot := fun o => if o = 0 then some 0 else if o = 32 then some 2 else none }
    | 2 => .cls

theorem cycle_walkedRight : cycle.WalkedRight := by
  intro o self hkind info hinfo
  match o with
  | 0 => cases hkind
  | 1 =>
    cases hkind
    simp only [List.mem_cons, List.not_mem_nil, or_false] at hinfo
    obtain rfl | rfl | rfl | rfl | rfl := hinfo <;> exact ⟨rfl, rfl⟩
  | 2 => cases hkind

/-- Access to the cycle goes from one thread to another. -/
theorem cycle_handed_over : ∃ w₂ : World Bool (Fin 3),
    w₂.Sound cycle.classes ∧ w₂.threadId 0 = .thread false ∧ w₂.threadId 1 = .thread false := by
  -- the first thread owns the objects, the second one has a pool in place
  have hrun : ∃ (w : World Bool (Fin 3)) (es : List (Event (Fin 3))),
      RunWhile (World.step cycle.classes) World.PoolInPlace
        (.init cycle.classes false fun _ => .isThreadsafe) es w ∧
      (w.pools true).frames = [] ∧ (w.pools false).frames = [] ∧
      (w.pools false).config.pools ≠ [] ∧
      (∀ o, o ≠ 2 → w.retainCount o = 1 ∧ w.relinquished o = 0 ∧ w.threadId o = .thread true) :=
    ⟨_, _, (((RunWhile.refl _).tail (false, .pool .push) (fun h => absurd rfl h) rfl).tail
      (true, .alloc 0 false) trivial rfl).tail (true, .alloc 1 false) trivial rfl, rfl, rfl,
      List.cons_ne_nil _ _, by decide⟩
  obtain ⟨w, es, hrun, hframes, hframes', hpools, hobjects⟩ := hrun
  have hw : w.Sound cycle.classes :=
    hrun.invariant (World.Sound cycle.classes)
      (fun hplace hw hstep => sound_step hw hplace hstep) (sound_init _ _)
  obtain ⟨p, q, -, -, hperf, -, htransfer⟩ :=
    @graph_transfer (Fin 3) (Fin 2) _ _ Bool _ _ _ cycle cycle_walkedRight 0 3 (by decide)
  have hne : ∀ o ∈ p.performed, o ≠ 2 := by
    rintro o ho rfl
    exact absurd ((hperf.mem_iff 2).mp ho).2 (by decide)
  have hcode : ∀ s : Pool.State (Fin 3), s.frames = [] → RunsCode s := by
    intro s hs
    simp [RunsCode, hs]
  obtain ⟨_, _, _, w₂, -, -, -, hw₂, -, -, -, -, hids, -⟩ := htransfer w true false hw
    (hcode _ hframes) (hcode _ hframes') hpools fun o ho =>
      ⟨by rw [(hobjects o (hne o ho)).1]; decide, (hobjects o (hne o ho)).2.1,
        .inr (.inr (hobjects o (hne o ho)).2.2)⟩
  have htarget : cycle.Transfers 0 1 := cycle.mem_children_iff.mp (by decide)
  refine ⟨w₂, hw₂, ?_, ?_⟩
  · rw [hids 0 ((hperf.mem_iff 0).mpr ⟨.refl, rfl⟩), (hobjects 0 (by decide)).2.2]
    rfl
  · rw [hids 1 ((hperf.mem_iff 1).mpr ⟨.single htarget, rfl⟩), (hobjects 1 (by decide)).2.2]
    rfl

/-- The invocation has an argument that is a union with an object. -/
def unionArgument : Graph Bool Unit where
  isConstant _ := false
  kind := fun
    | false => .invocation
      { strategy := .callerRemovesFromCurrentPool
        infos := [⟨80, .scalar ⟨0, 0, Invocation.Scalar.void_aligned⟩⟩, ⟨0, .retainId⟩,
          ⟨8, .scalar ⟨4, 2, Invocation.Scalar.int_aligned⟩⟩, ⟨16, .union [.retainId]⟩]
        slot := fun o => if o = 0 then some true else none }
    | true => .object
      { strategy := .callerRemovesFromCurrentPool
        properties := []
        ivars := []
        isObject := fun _ => true
        value := fun _ => none }

/-- Relinquishing access to the invocation throws, after it has relinquished access to the
target. -/
theorem unionArgument_throws :
    (∀ fuel, unionArgument.relinquishAccess (fuel + 2) false = .error (.exception [true])) ∧
    ¬ ∀ (g : Graph Bool Unit) (root : Bool), ∃ fuel p, g.relinquishAccess fuel root = .ok p ∧
      g.Performs root p := by
  have hthrows : ∀ fuel,
      unionArgument.relinquishAccess (fuel + 2) false = .error (.exception [true]) :=
    fun fuel => rfl
  refine ⟨hthrows, fun hclaim => ?_⟩
  obtain ⟨fuel, p, hp, -⟩ := hclaim unionArgument false
  match fuel with
  | 0 => cases hp
  | 1 => cases hp
  | fuel + 2 =>
    rw [hthrows] at hp
    cases hp

end MulleObjC.Access
