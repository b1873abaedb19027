import MulleObjC.Access.Handover

/-!
# Access to arrays of objects

A container hands its objects over as arrays. Calls that share a set of the objects they
have come across do to all of the arrays what a message does to one root. Calls with sets of
their own come across an object once for every array that it is reached from.
-/

namespace MulleObjC.Access

open Machine

universe u

section Calls

variable {Obj Ivar : Type u} [DecidableEq Obj]

/-- The loop over the objects of an array. What was not met before is sent a message. -/
def accessToObjectsWithUniquingSet (send : Obj → Progress Obj → Result Obj (Progress Obj))
    (objects : List (Option Obj)) (p : Progress Obj) : Result Obj (Progress Obj) :=
  objects.foldlM (fun p obj => callIvar send obj p) p

namespace Graph

variable [DecidableEq Ivar] (g : Graph Obj Ivar) (fuel : ℕ)

/-- `MulleObjCGainAccessToObjectsWithUniquingSet` -/
def gainAccessToObjectsWithUniquingSet :
    List (Option Obj) → Progress Obj → Result Obj (Progress Obj) :=
  accessToObjectsWithUniquingSet (g.gainAccessWithUniquingSet fuel)

/-- `MulleObjCRelinquishAccessToObjectsWithUniquingSet` -/
def relinquishAccessToObjectsWithUniquingSet :
    List (Option Obj) → Progress Obj → Result Obj (Progress Obj) :=
  accessToObjectsWithUniquingSet (g.relinquishAccessWithUniquingSet fuel)

/-- `MulleObjCGainAccessToObjects` -/
def gainAccessToObjects (objects : List (Option Obj)) : Result Obj (Progress Obj) :=
  g.gainAccessToObjectsWithUniquingSet fuel objects ⟨∅, []⟩

/-- `MulleObjCRelinquishAccessToObjects` -/
def relinquishAccessToObjects (objects : List (Option Obj)) : Result Obj (Progress Obj) :=
  g.relinquishAccessToObjectsWithUniquingSet fuel objects ⟨∅, []⟩

/-- Calls of `MulleObjCGainAccessToObjectsWithUniquingSet` that share a set. -/
def gainSharing (calls : List (List (Option Obj))) : Result Obj (Progress Obj) :=
  calls.foldlM (fun p objects => g.gainAccessToObjectsWithUniquingSet fuel objects p) ⟨∅, []⟩

/-- Calls of `MulleObjCRelinquishAccessToObjectsWithUniquingSet` that share a set. -/
def relinquishSharing (calls : List (List (Option Obj))) : Result Obj (Progress Obj) :=
  calls.foldlM (fun p objects => g.relinquishAccessToObjectsWithUniquingSet fuel objects p)
    ⟨∅, []⟩

/-- A call with a set of its own shares it with nobody. -/
theorem gainSharing_singleton (objects : List (Option Obj)) :
    g.gainSharing fuel [objects] = g.gainAccessToObjects fuel objects := by
  rw [gainSharing, List.foldlM_cons]
  exact bind_pure _

theorem relinquishSharing_singleton (objects : List (Option Obj)) :
    g.relinquishSharing fuel [objects] = g.relinquishAccessToObjects fuel objects := by
  rw [relinquishSharing, List.foldlM_cons]
  exact bind_pure _

end Graph

end Calls

section Transfer

variable {Obj Ivar : Type u} [DecidableEq Ivar] (g : Graph Obj Ivar)

/-- The transfer comes across an object. -/
def Graph.Reached (objects : List (Option Obj)) (o : Obj) : Prop :=
  ∃ root, some root ∈ objects ∧ Relation.ReflTransGen g.Transfers root o

/-- The instances that are reached, one after the other. -/
structure Graph.PerformsAll (objects : List (Option Obj)) (p : Progress Obj) : Prop where
  nodup : p.performed.Nodup
  mem_iff : ∀ o, o ∈ p.performed ↔ g.Reached objects o ∧ g.isInstance o

variable {g} [DecidableEq Obj] {visit : Obj → Finset Obj → Option (Finset Obj × List Obj)}
  {send : Obj → Progress Obj → Result Obj (Progress Obj)}

omit [DecidableEq Ivar] in
/-- The objects of an array, one after the other. -/
theorem tracks_accessToObjectsWithUniquingSet (hsend : ∀ o, Tracks g (send o) (visit o))
    (objects : List (Option Obj)) :
    Tracks g (accessToObjectsWithUniquingSet send objects)
      (DepthFirst.visitAll visit (objects.flatMap Option.toList)) :=
  tracks_foldlM fun obj _ => tracks_callIvar hsend obj

omit [DecidableEq Ivar] in
/-- Calls that share a set go through the objects of all arrays. -/
theorem tracks_sharing (hsend : ∀ o, Tracks g (send o) (visit o))
    (calls : List (List (Option Obj))) :
    Tracks g (calls.foldlM fun p objects => accessToObjectsWithUniquingSet send objects p)
      (DepthFirst.visitAll visit (calls.flatten.flatMap Option.toList)) := by
  have hobjects : calls.flatten.flatMap Option.toList =
      calls.flatMap fun objects => objects.flatMap Option.toList := by
    rw [← List.flatMap_id', List.flatMap_assoc]
  rw [hobjects]
  exact tracks_foldlM fun objects _ => tracks_accessToObjectsWithUniquingSet hsend objects

/-- Calls that do what a search from the objects does return and perform the transfer. -/
theorem performsAll_of_tracks [Fintype Obj] {objects : List (Option Obj)} {fuel : ℕ}
    {post : Bool} {calls : Progress Obj → Result Obj (Progress Obj)}
    (hfuel : Fintype.card Obj ≤ fuel)
    (h : Tracks g calls (DepthFirst.visitAll (DepthFirst.visit g.children post fuel)
      (objects.flatMap Option.toList))) :
    ∃ p, calls ⟨∅, []⟩ = .ok p ∧ g.PerformsAll objects p := by
  obtain ⟨seen, order, hvisit, hnodup, hmem⟩ :=
    DepthFirst.exists_searchAll g.children post (objects.flatMap Option.toList) hfuel
  have hmet : Progress.Met ⟨∅, []⟩ (∅ : Finset Obj) := by
    intro o
    simp
  obtain ⟨p, hp, -, hperf⟩ := h _ _ seen order hmet hvisit
  have hperf' : p.performed = order.filter g.isInstance := by simpa using hperf
  refine ⟨p, hp, ?_, fun o => ?_⟩
  · rw [hperf']
    exact hnodup.filter _
  · rw [hperf', List.mem_filter, hmem, Graph.Reached]
    simp only [List.mem_flatMap, Option.mem_toList, exists_eq_right,
      reaches_children_iff]

section Calls

variable [Fintype Obj] {fuel : ℕ}

theorem exists_gainSharing (hright : g.WalkedRight) (hfuel : Fintype.card Obj ≤ fuel)
    (calls : List (List (Option Obj))) :
    ∃ p, g.gainSharing fuel calls = .ok p ∧ g.PerformsAll calls.flatten p :=
  performsAll_of_tracks hfuel
    (tracks_sharing (tracks_gainAccessWithUniquingSet hright fuel) calls)

theorem exists_relinquishSharing (hright : g.WalkedRight) (hfuel : Fintype.card Obj ≤ fuel)
    (calls : List (List (Option Obj))) :
    ∃ p, g.relinquishSharing fuel calls = .ok p ∧ g.PerformsAll calls.flatten p :=
  performsAll_of_tracks hfuel
    (tracks_sharing (tracks_relinquishAccessWithUniquingSet hright fuel) calls)

theorem exists_relinquishAccessToObjects (hright : g.WalkedRight)
    (hfuel : Fintype.card Obj ≤ fuel) (objects : List (Option Obj)) :
    ∃ p, g.relinquishAccessToObjects fuel objects = .ok p ∧ g.PerformsAll objects p := by
  have h := exists_relinquishSharing hright hfuel [objects]
  rwa [Graph.relinquishSharing_singleton, List.flatten_singleton] at h

end Calls

end Transfer

section World

variable {Thread Obj : Type*} [DecidableEq Thread] [Fintype Thread] [DecidableEq Obj]

/-- One thread relinquishes access to some objects, one after the other, and then another one
gains access to them. The references and the affinity of all of them are handed over. -/
def World.HandsOver (classes : Classes Obj) (w : World Thread Obj) (t u : Thread)
    (os gained : List Obj) : Prop :=
  ∃ es w₁ fs w₂,
    exec (World.step classes) w (os.map fun o => (t, .relinquish o)) = some (es, w₁) ∧
    exec (World.step classes) w₁ (gained.map fun o => (u, .gain o)) = some (fs, w₂) ∧
    w₁.Sound classes ∧ w₂.Sound classes ∧ w₁.owners = w.owners ∧ w₂.owners = w.owners ∧
    (∀ o, w₁.relinquished o = w.relinquished o + os.count o) ∧
    w₂.relinquished = w.relinquished ∧
    (∀ o ∈ os, w₂.threadId o = gainedId (classes.strategy o) (w.threadId o) u) ∧
    ∀ o ∉ os, w₁.threadId o = w.threadId o ∧ w₂.threadId o = w.threadId o

end World

section Arrays

variable {Obj Ivar : Type u} [DecidableEq Ivar] [DecidableEq Obj] [Fintype Obj]
  {Thread : Type*} [DecidableEq Thread] [Fintype Thread]

open scoped Classical in
omit [Fintype Obj] in
/-- Each call comes across an instance that its array reaches once. -/
theorem count_flatMap_performed {g : Graph Obj Ivar} {found : List (Option Obj) → Progress Obj}
    (hperf : ∀ objects, g.PerformsAll objects (found objects)) (calls : List (List (Option Obj)))
    (o : Obj) : ((calls.map found).flatMap Progress.performed).count o =
      if g.isInstance o then calls.countP (fun objects => g.Reached objects o) else 0 := by
  induction calls with
  | nil => simp
  | cons objects calls ih =>
    have hmem := (hperf objects).mem_iff o
    rw [List.map_cons, List.flatMap_cons, List.count_append, ih, List.countP_cons,
      (hperf objects).nodup.count]
    by_cases ho : g.isInstance o
    · simp only [ho, and_true] at hmem
      simp only [hmem, ho, if_true, decide_eq_true_eq]
      omega
    · have hnot : o ∉ (found objects).performed := fun h => ho (hmem.mp h).2
      simp [ho, hnot]

/-- Calls that share a set relinquish access to every instance that the arrays reach once. So
do calls that gain it, however these put the same objects into arrays, and what one thread
relinquishes is handed over to the other. -/
theorem arrays_transfer (g : Graph Obj Ivar) (hright : g.WalkedRight) {fuel : ℕ}
    (hfuel : Fintype.card Obj ≤ fuel) (calls calls' : List (List (Option Obj)))
    (hsame : ∀ o : Obj, some o ∈ calls'.flatten ↔ some o ∈ calls.flatten) :
    ∃ p q, g.relinquishSharing fuel calls = .ok p ∧ g.gainSharing fuel calls' = .ok q ∧
      g.PerformsAll calls.flatten p ∧ g.PerformsAll calls.flatten q ∧
      ∀ (w : World Thread Obj) (t u : Thread), w.Sound g.classes → RunsCode (w.pools t) →
        RunsCode (w.pools u) → (w.pools u).config.pools ≠ [] →
        (∀ o ∈ p.performed, w.CanRelinquish g.classes t o) →
        w.HandsOver g.classes t u p.performed q.performed := by
  obtain ⟨p, hp, hperf⟩ := exists_relinquishSharing hright hfuel calls
  obtain ⟨q, hq, hperf'⟩ := exists_gainSharing hright hfuel calls'
  have hreached : ∀ o, g.Reached calls'.flatten o ↔ g.Reached calls.flatten o := by
    intro o
    simp only [Graph.Reached, hsame]
  have hgained : g.PerformsAll calls.flatten q :=
    ⟨hperf'.nodup, fun o => by rw [hperf'.mem_iff, hreached]⟩
  refine ⟨p, q, hp, hq, hperf, hgained, fun w t u hw hcode hcode' hpools hos => ?_⟩
  have hperm : q.performed.Perm p.performed := by
    refine (List.perm_ext_iff_of_nodup hgained.nodup hperf.nodup).mpr fun o => ?_
    rw [hgained.mem_iff, hperf.mem_iff]
  exact exec_handover hw hcode hcode' hpools hperf.nodup hperm hos

open scoped Classical in
/-- Calls with sets of their own return as well, each with the instances that its array
reaches. So an instance comes up once for every array that it is reached from. If no instance
is reached from two of the arrays, a thread can relinquish access to all that come up. -/
theorem ownSets_count (g : Graph Obj Ivar) (hright : g.WalkedRight) {fuel : ℕ}
    (hfuel : Fintype.card Obj ≤ fuel) (calls : List (List (Option Obj))) :
    ∃ ps, calls.mapM (g.relinquishAccessToObjects fuel) = .ok ps ∧
      List.Forall₂ g.PerformsAll calls ps ∧
      (∀ o, (ps.flatMap Progress.performed).count o =
        if g.isInstance o then calls.countP (fun objects => g.Reached objects o) else 0) ∧
      ((∀ o, g.isInstance o → calls.countP (fun objects => g.Reached objects o) ≤ 1) →
        ∀ (w : World Thread Obj) (t : Thread), w.Sound g.classes → RunsCode (w.pools t) →
          (∀ o ∈ ps.flatMap Progress.performed, w.CanRelinquish g.classes t o) →
          (exec (World.step g.classes) w
            ((ps.flatMap Progress.performed).map fun o => (t, .relinquish o))).isSome) := by
  choose found hfound hperf using
    exists_relinquishAccessToObjects (g := g) hright hfuel
  have hcalls : calls.mapM (g.relinquishAccessToObjects fuel) = .ok (calls.map found) := by
    rw [funext hfound]
    exact List.mapM_pure
  have hall : List.Forall₂ g.PerformsAll calls (calls.map found) := by
    rw [List.forall₂_map_right_iff, List.forall₂_same]
    exact fun objects _ => hperf objects
  have hcount (o : Obj) : ((calls.map found).flatMap Progress.performed).count o =
      if g.isInstance o then calls.countP (fun objects => g.Reached objects o) else 0 :=
    count_flatMap_performed hperf calls o
  refine ⟨calls.map found, hcalls, hall, hcount, fun honce w t hw hcode hos => ?_⟩
  have hnodup : ((calls.map found).flatMap Progress.performed).Nodup := by
    refine List.nodup_iff_count_le_one.mpr fun o => ?_
    rw [hcount]
    split
    · next ho => exact honce o ho
    · exact Nat.zero_le 1
  obtain ⟨es, w', hexec, -⟩ := exec_relinquish hw hcode hnodup hos
  simp [hexec]

end Arrays

/-- A thread has access to the cycle, and another one has a pool in place. -/
theorem exists_cycle_world : ∃ w : World Bool (Fin 3),
    w.Sound cycle.classes ∧ RunsCode (w.pools true) ∧ RunsCode (w.pools false) ∧
      (w.pools false).config.pools ≠ [] ∧
      ∀ o, o ≠ 2 → w.CanRelinquish cycle.classes true o ∧ w.threadId o = .thread true := by
  have hrun : ∃ (w : World Bool (Fin 3)) (es : List (Pool.Event (Fin 3))),
      RunWhile (World.step cycle.classes) World.PoolInPlace
        (.init cycle.classes false fun _ => .isThreadsafe) es w ∧
      (w.pools true).frames = [] ∧ (w.pools false).frames = [] ∧
      (w.pools false).config.pools ≠ [] ∧
      (∀ o, o ≠ 2 → w.retainCount o = 1 ∧ w.relinquished o = 0 ∧ w.threadId o = .thread true) :=
    ⟨_, _, (((RunWhile.refl _).tail (false, .pool .push) (fun h => absurd rfl h) rfl).tail
      (true, .alloc 0 false) trivial rfl).tail (true, .alloc 1 false) trivial rfl, rfl, rfl,
      List.cons_ne_nil _ _, by decide⟩
  obtain ⟨w, es, hrun, hframes, hframes', hpools, hobjects⟩ := hrun
  have hw : w.Sound cycle.classes :=
    hrun.invariant (World.Sound cycle.classes)
      (fun hplace hw hstep => sound_step hw hplace hstep) (sound_init _ _)
  refine ⟨w, hw, by simp [RunsCode, hframes], by simp [RunsCode, hframes'], hpools, fun o ho => ?_⟩
  obtain ⟨hcount, hrel, hid⟩ := hobjects o ho
  exact ⟨⟨by rw [hcount]; decide, hrel, .inr (.inr hid)⟩, hid⟩

/-- The object is in two arrays, the invocation in none. Both are handed over. -/
theorem arrays_handed_over : ∃ p q,
    cycle.relinquishSharing 3 [[some 0, none], [some 2, some 0]] = .ok p ∧
    cycle.gainSharing 3 [[some 2, some 0]] = .ok q ∧
    0 ∈ p.performed ∧ 1 ∈ p.performed ∧
    ∃ w : World Bool (Fin 3), w.threadId 0 = .thread true ∧ w.threadId 1 = .thread true ∧
      w.HandsOver cycle.classes true false p.performed q.performed := by
  obtain ⟨w, hw, hcode, hcode', hpools, hobjects⟩ := exists_cycle_world
  obtain ⟨p, q, hp, hq, hperf, -, htransfer⟩ :=
    @arrays_transfer (Fin 3) (Fin 2) _ _ _ Bool _ _ cycle cycle_walkedRight 3 (by decide)
      [[some 0, none], [some 2, some 0]] [[some 2, some 0]] (by decide)
  have htarget : cycle.Transfers 0 1 := cycle.mem_children_iff.mp (by decide)
  have hzero : 0 ∈ p.performed := (hperf.mem_iff 0).mpr ⟨⟨0, by decide, .refl⟩, rfl⟩
  have hone : 1 ∈ p.performed := (hperf.mem_iff 1).mpr ⟨⟨0, by decide, .single htarget⟩, rfl⟩
  have hne : ∀ o ∈ p.performed, o ≠ 2 := by
    rintro o ho rfl
    exact absurd ((hperf.mem_iff 2).mp ho).2 (by decide)
  exact ⟨p, q, hp, hq, hzero, hone, w, (hobjects 0 (by decide)).2, (hobjects 1 (by decide)).2,
    htransfer w true false hw hcode hcode' hpools fun o ho => (hobjects o (hne o ho)).1⟩

/-- The object and the invocation refer to each other, so that each of them comes up twice. -/
theorem ownSets_twice : ∃ ps : List (Progress (Fin 3)),
    [[some 0], [some 1]].mapM (cycle.relinquishAccessToObjects 3) = .ok ps ∧
    (ps.flatMap Progress.performed).count 1 = 2 := by
  obtain ⟨ps, hps, -, hcount, -⟩ :=
    @ownSets_count (Fin 3) (Fin 2) _ _ _ Bool _ _ cycle cycle_walkedRight 3 (by decide)
      [[some 0], [some 1]]
  have htarget : cycle.Transfers 0 1 := cycle.mem_children_iff.mp (by decide)
  have hreached : ∀ objects ∈ [[some 0], [some 1]], cycle.Reached objects 1 := by
    intro objects hobjects
    rcases List.mem_pair.mp hobjects with rfl | rfl
    · exact ⟨0, by decide, .single htarget⟩
    · exact ⟨1, by decide, .refl⟩
  have hinstance : cycle.isInstance 1 = true := rfl
  refine ⟨ps, hps, ?_⟩
  rw [hcount, if_pos hinstance]
  exact List.countP_eq_length.mpr fun objects hobjects => by simpa using hreached _ hobjects

end MulleObjC.Access
