import MulleObjC.NSThread.Phases

/-!
# Turns of two threads

At most one of the calling thread and the new thread works on the argument, as `-mulleJoin`
waits for the end of the new thread and `-dealloc` runs behind the last release.
-/

namespace MulleObjC.NSThread

namespace Control

variable {Thread : Type*} (creator : Thread) (c : Control Thread)

/-- The thread object is gone. -/
def IsDeallocated : Prop :=
  c.object.users = 0 ∧ c.caller = none ∧ ∀ thread ∈ c.thread, thread.2 = none

/-- The references to the thread object that its methods hold. -/
def ownReferences : ℕ :=
  c.caller.elim 0 (·.2.references) + c.thread.elim 0 (·.2.elim 0 Statement.references)

/-- What is known when the calling thread and the new thread are in front of the given
statements. -/
def Running (o : ThreadObject Thread) :
    Option (Thread × Statement Thread) → Option (Thread × Option (Statement Thread)) → Prop
  | none, none =>
    if o.users = 0 then o.Finished else o.Unused creator ∧ o.isDetached = false
  | some (t, statement), none =>
    (statement.role = .start ∧ 0 < o.users ∨ statement.role = .dealloc ∧ o.users = 0) ∧
      o.Expects creator t statement
  | none, some (u, some statement) =>
    (statement.role = .thread ∨ statement.role = .dealloc ∧ o.users = 0) ∧
      o.Expects creator u statement
  | some (t, waiting), some (u, some statement) =>
    waiting = .join ∧ 0 < o.users ∧ o.Expects creator t .join ∧
      statement.role = .thread ∧ o.Expects creator u statement
  | none, some (u, none) =>
    if o.users = 0 then o.Finished
    else if o.isJoinable then o.HandedOn u
    else o.Ends u .join
  | some (t, statement), some (u, none) =>
    (statement.role = .join ∧ 0 < o.users ∨ statement.role = .dealloc ∧ o.users = 0) ∧
      o.Expects creator t statement ∧ (statement = .join → o.HandedOn u)

/-- The invariant of the methods of a thread object. -/
structure Consistent : Prop where
  slot : c.object.OneSlot
  references : c.object.retainCount = c.object.users + c.ownReferences
  running : Running creator c.object c.caller c.thread

variable {creator c}

theorem consistent_created (creator : Thread) (isObjectFunctionArgument : Bool) :
    (created creator isObjectFunctionArgument).Consistent creator := by
  refine ⟨?_, rfl, ⟨⟨?_, rfl, rfl, rfl, rfl⟩, rfl⟩⟩
  · cases isObjectFunctionArgument <;> rfl
  · cases isObjectFunctionArgument <;> rfl

variable {c' : Control Thread} {call : Option (Thread × Call)}

/-- What is true of a call by a step. -/
def Effect (c c' : Control Thread) (call : Option (Thread × Call)) : Prop :=
  match call with
  | none => c'.object.holds = c.object.holds ∧ c'.object.accessor = c.object.accessor
  | some (t, call) => c.object.Effect c'.object t (some call)

theorem effect_map {o : ThreadObject Thread} {t : Thread} {call : Option Call}
    (h : c.object.Effect o t call) (hobject : c'.object = o) :
    c.Effect c' (call.map (t, ·)) := by
  subst hobject
  cases call with
  | none => exact h
  | some call => exact h

/-- A method is called that does not keep a reference of its own at first. -/
theorem Consistent.enter (h : c.Consistent creator) (hcaller : c.caller = none) {t : Thread}
    {statement : Statement Thread} (hreferences : statement.references = 0)
    (hrunning : Running creator c.object (some (t, statement)) c.thread) :
    Consistent creator { c with caller := some (t, statement) } ∧
      c.Effect { c with caller := some (t, statement) } none := by
  refine ⟨⟨h.slot, ?_, hrunning⟩, rfl, rfl⟩
  have hcount := h.references
  simp only [ownReferences, hcaller, Option.elim_none, Option.elim_some, hreferences] at hcount ⊢
  exact hcount

theorem Consistent.unused (h : c.Consistent creator) (hcaller : c.caller = none)
    (hthread : c.thread = none) (husers : 0 < c.object.users) :
    c.object.Unused creator ∧ c.object.isDetached = false := by
  have hrunning := h.running
  rw [hcaller, hthread, Running, if_neg (Nat.ne_of_gt husers)] at hrunning
  exact hrunning

theorem Consistent.start (h : c.Consistent creator) (hcaller : c.caller = none)
    (hthread : c.thread = none) (husers : 0 < c.object.users) {t u : Thread}
    {statement : Statement Thread} (hfirst : statement = .setDetached u ∨ statement = .retain u) :
    Consistent creator { c with caller := some (t, statement) } ∧
      c.Effect { c with caller := some (t, statement) } none := by
  have hunused := (h.unused hcaller hthread husers).1
  obtain rfl | rfl := hfirst
  · apply h.enter hcaller rfl
    rw [hthread]
    exact ⟨.inl ⟨rfl, husers⟩, hunused⟩
  · apply h.enter hcaller rfl
    rw [hthread]
    exact ⟨.inl ⟨rfl, husers⟩, hunused⟩

theorem Consistent.mulleJoin (h : c.Consistent creator) (hdetached : c.object.isDetached = false)
    (hcaller : c.caller = none) (hjoinable : c.object.isJoinable = true)
    (husers : 0 < c.object.users) (t : Thread) :
    Consistent creator { c with caller := some (t, .join) } ∧
      c.Effect { c with caller := some (t, .join) } none := by
  apply h.enter hcaller rfl
  have hrunning := h.running
  rw [hcaller] at hrunning
  rcases hthread : c.thread with _ | ⟨u, _ | statement⟩
  · have hunused := (h.unused hcaller hthread husers).1
    simp [hunused.notJoinable] at hjoinable
  · rw [hthread, Running, if_neg (Nat.ne_of_gt husers), if_pos hjoinable] at hrunning
    exact ⟨.inl ⟨rfl, husers⟩, ⟨hdetached, hjoinable⟩, fun _ => hrunning⟩
  · rw [hthread] at hrunning
    obtain ⟨hrole | ⟨-, hzero⟩, hexpects⟩ := hrunning
    · exact ⟨rfl, husers, ⟨hdetached, hjoinable⟩, hrole, hexpects⟩
    · exact absurd hzero (Nat.ne_of_gt husers)

section Caller

variable {o : ThreadObject Thread} {t : Thread} {statement : Statement Thread}
  {thread : Option (Thread × Option (Statement Thread))}

theorem Running.expects_caller (h : Running creator o (some (t, statement)) thread) :
    o.Expects creator t statement := by
  rcases thread with _ | ⟨u, _ | statement'⟩
  · exact h.2
  · exact h.2.1
  · obtain ⟨rfl, -, hexpects, -⟩ := h
    exact hexpects

theorem Running.leaves_caller (h : Running creator o (some (t, statement)) thread)
    (ho : o.OneSlot) (hjoin : statement = .join → ∃ u, thread = some (u, none)) :
    o.Leaves creator t statement.role (o.exec t statement) := by
  have hexpects := h.expects_caller
  rcases thread with _ | ⟨u, _ | statement'⟩
  · exact ThreadObject.exec_leaves ho hexpects (u := t) fun h => by simpa using hjoin h
  · exact ThreadObject.exec_leaves ho hexpects h.2.2
  · simpa using hjoin h.1

theorem Running.role_ne_thread (h : Running creator o (some (t, statement)) thread) :
    statement.role ≠ .thread := by
  rcases thread with _ | ⟨u, _ | statement'⟩
  · obtain ⟨⟨hrole, -⟩ | ⟨hrole, -⟩, -⟩ := h <;> simp [hrole]
  · obtain ⟨⟨hrole, -⟩ | ⟨hrole, -⟩, -⟩ := h <;> simp [hrole]
  · obtain ⟨rfl, -⟩ := h
    simp [Statement.role]

theorem Running.caller (h : Running creator o (some (t, statement)) thread)
    (ho : o.OneSlot) (hjoin : statement = .join → ∃ u, thread = some (u, none))
    (hcreate : ∀ u, statement ≠ .createThread u) :
    Running creator (o.exec t statement).object ((o.exec t statement).next.map (t, ·)) thread := by
  have hleaves := h.leaves_caller ho hjoin
  have husers : (o.exec t statement).object.users = o.users := ThreadObject.exec_users ..
  cases hnext : (o.exec t statement).next with
  | none =>
    have hends := hleaves.ends hnext
    rcases thread with _ | ⟨u, _ | statement'⟩
    · obtain ⟨⟨hrole, -⟩ | ⟨hrole, hzero⟩, -⟩ := h
      · obtain ⟨u, rfl⟩ := ThreadObject.eq_createThread_of_next hrole hnext
        exact absurd rfl (hcreate u)
      · rw [hrole] at hends
        rw [Option.map_none, Running, if_pos (husers.trans hzero)]
        exact hends
    · obtain ⟨⟨hrole, hpositive⟩ | ⟨hrole, hzero⟩, -, -⟩ := h
      · rw [hrole] at hends
        rw [Option.map_none, Running, if_neg (by omega), if_neg (by simp [hends.1])]
        exact hends
      · rw [hrole] at hends
        rw [Option.map_none, Running, if_pos (husers.trans hzero)]
        exact hends
    · simpa using hjoin h.1
  | some next =>
    have hexpects := hleaves.next next hnext
    have hrole : next.role = statement.role ∧ next ≠ .join := by
      obtain hrole | ⟨rfl, -, -⟩ := ThreadObject.role_of_mem_next hnext
      · exact hrole
      · exact absurd rfl h.role_ne_thread
    rcases thread with _ | ⟨u, _ | statement'⟩
    · obtain ⟨hrunning, -⟩ := h
      rw [← hrole.1, ← husers] at hrunning
      exact ⟨hrunning, hexpects⟩
    · obtain ⟨hrunning, -, -⟩ := h
      rw [← hrole.1, ← husers] at hrunning
      exact ⟨hrunning, hexpects, fun h => absurd h hrole.2⟩
    · simpa using hjoin h.1

end Caller

theorem Consistent.runCaller (h : c.Consistent creator) {t : Thread} {statement : Statement Thread}
    (hcaller : c.caller = some (t, statement)) (hgoesOn : c.goesOn statement = true)
    (hcreate : ∀ u, statement ≠ .createThread u) :
    let r := c.object.exec t statement
    Consistent creator { c with object := r.object, caller := r.next.map (t, ·) } ∧
      c.Effect { c with object := r.object, caller := r.next.map (t, ·) } (r.call.map (t, ·)) := by
  intro r
  have husers : r.object.users = c.object.users := ThreadObject.exec_users ..
  have hreferences : r.object.retainCount =
      r.object.users + ownReferences { c with object := r.object, caller := r.next.map (t, ·) } := by
    have hcount := h.references
    simp only [ownReferences, hcaller, Option.elim_some] at hcount
    have hexec : r.object.retainCount + statement.references =
        c.object.retainCount + r.next.elim 0 Statement.references :=
      ThreadObject.exec_references t (by omega) hcreate
    have hnext :
        (r.next.map (t, ·)).elim 0 (·.2.references) = r.next.elim 0 Statement.references := by
      cases r.next <;> rfl
    simp only [ownReferences, hnext]
    omega
  have hjoin : statement = .join → ∃ u, c.thread = some (u, none) := by
    rintro rfl
    rw [goesOn] at hgoesOn
    split at hgoesOn
    next u hthread => exact ⟨u, hthread⟩
    · simp at hgoesOn
  have hrunning := h.running
  rw [hcaller] at hrunning
  have hleaves := hrunning.leaves_caller h.slot hjoin
  refine ⟨⟨hleaves.slot, hreferences, hrunning.caller h.slot hjoin hcreate⟩, ?_⟩
  exact effect_map hleaves.effect rfl

/-- `-mulleStart` keeps its reference for the new thread. -/
theorem Consistent.createThread (h : c.Consistent creator) {t u : Thread}
    (hcaller : c.caller = some (t, .createThread u)) :
    let r := c.object.exec t (.createThread u)
    let c' := { c with
      object := r.object
      caller := r.next.map (t, ·)
      thread := some (u, some .newPoolConfiguration) }
    Consistent creator c' ∧ c.Effect c' (r.call.map (t, ·)) := by
  intro r c'
  have hrunning := h.running
  rw [hcaller] at hrunning
  have hthread : c.thread = none := by
    rcases hthread : c.thread with _ | ⟨u, _ | statement⟩
    · rfl
    · rw [hthread] at hrunning
      simp [Running, Statement.role] at hrunning
    · rw [hthread] at hrunning
      simp [Running] at hrunning
  rw [hthread] at hrunning
  have hleaves : c.object.Leaves creator t .start r := 
    hrunning.leaves_caller h.slot (by simp)
  refine ⟨⟨hleaves.slot, ?_, .inl rfl, hleaves.ends rfl⟩, effect_map hleaves.effect rfl⟩
  have hcount := h.references
  rw [ownReferences, hcaller, hthread] at hcount
  exact hcount

section Thread

variable {o : ThreadObject Thread} {u : Thread} {statement : Statement Thread}
  {caller : Option (Thread × Statement Thread)}

theorem Running.expects_thread (h : Running creator o caller (some (u, some statement))) :
    o.Expects creator u statement := by
  rcases caller with _ | ⟨t, waiting⟩
  · exact h.2
  · exact h.2.2.2.2

theorem Running.role_thread (h : Running creator o caller (some (u, some statement))) :
    statement.role = .thread ∨ statement.role = .dealloc := by
  rcases caller with _ | ⟨t, waiting⟩
  · exact h.1.imp_right And.left
  · exact .inl h.2.2.2.1

theorem Running.leaves_thread (h : Running creator o caller (some (u, some statement)))
    (ho : o.OneSlot) : o.Leaves creator u statement.role (o.exec u statement) := by
  have hrole := h.role_thread
  refine ThreadObject.exec_leaves ho h.expects_thread (u := u) ?_
  rintro rfl
  simp [Statement.role] at hrole

theorem Running.thread (h : Running creator o caller (some (u, some statement)))
    (ho : o.OneSlot) (hcount : statement.role = .thread → o.retainCount = o.users + 1) :
    Running creator (o.exec u statement).object caller
      (some (u, (o.exec u statement).next)) := by
  have hleaves := h.leaves_thread ho
  have husers : (o.exec u statement).object.users = o.users := ThreadObject.exec_users ..
  cases hnext : (o.exec u statement).next with
  | none =>
    have hends := hleaves.ends hnext
    rcases caller with _ | ⟨t, waiting⟩
    · obtain ⟨hrole | ⟨hrole, hzero⟩, -⟩ := h
      · rw [hrole] at hends
        have hpositive : o.users ≠ 0 := by
          obtain rfl := ThreadObject.eq_releaseThreadObject_of_next hrole hnext
          rintro hzero
          simp [ThreadObject.exec, hcount hrole, hzero] at hnext
        rw [Running, if_neg (by omega), if_pos hends.joinable]
        exact hends
      · rw [hrole] at hends
        rw [Running, if_pos (husers.trans hzero)]
        exact hends
    · obtain ⟨rfl, hpositive, hjoin, hrole, -⟩ := h
      rw [hrole] at hends
      refine ⟨.inl ⟨rfl, by omega⟩, ⟨?_, hends.joinable⟩, fun _ => hends⟩
      exact (ThreadObject.exec_isDetached hrole).trans hjoin.1
  | some next =>
    have hexpects := hleaves.next next hnext
    obtain ⟨hrole, -⟩ | ⟨rfl, hlast, rfl⟩ := ThreadObject.role_of_mem_next hnext
    · rcases caller with _ | ⟨t, waiting⟩
      · obtain ⟨hrunning, -⟩ := h
        rw [← hrole, ← husers] at hrunning
        exact ⟨hrunning, hexpects⟩
      · obtain ⟨rfl, hpositive, hjoin, hthread, -⟩ := h
        refine ⟨rfl, by omega, ⟨?_, ?_⟩, hrole.trans hthread, hexpects⟩
        · exact (ThreadObject.exec_isDetached hthread).trans hjoin.1
        · exact (ThreadObject.exec_isJoinable hthread).trans hjoin.2
    · have hzero : o.users = 0 := by
        have := hcount rfl
        omega
      rcases caller with _ | ⟨t, waiting⟩
      · exact ⟨.inr ⟨rfl, husers.trans hzero⟩, hexpects⟩
      · exact absurd hzero (Nat.ne_of_gt h.2.1)

end Thread

theorem Consistent.retainCount_of_thread (h : c.Consistent creator) {u : Thread}
    {statement : Statement Thread} (hthread : c.thread = some (u, some statement))
    (hrole : statement.role = .thread) : c.object.retainCount = c.object.users + 1 := by
  have hcount := h.references
  have hrunning := h.running
  have hreferences := Statement.references_of_role hrole
  rw [hthread] at hrunning
  rcases hcaller : c.caller with _ | ⟨t, waiting⟩
  · simpa [ownReferences, hcaller, hthread, hreferences] using hcount
  · rw [hcaller] at hrunning
    obtain ⟨rfl, -⟩ := hrunning
    rw [ownReferences, hcaller, hthread] at hcount
    simpa [hreferences, Statement.references_join] using hcount

theorem Consistent.runThread (h : c.Consistent creator) {u : Thread} {statement : Statement Thread}
    (hthread : c.thread = some (u, some statement)) :
    let r := c.object.exec u statement
    Consistent creator { c with object := r.object, thread := some (u, r.next) } ∧
      c.Effect { c with object := r.object, thread := some (u, r.next) } (r.call.map (u, ·)) := by
  intro r
  have hrunning := h.running
  rw [hthread] at hrunning
  have hleaves := hrunning.leaves_thread h.slot
  have hcreate : ∀ u, statement ≠ .createThread u := by
    rintro u' rfl
    rcases hcaller : c.caller with _ | ⟨t, waiting⟩
    · simp [hcaller, Running, Statement.role] at hrunning
    · simp [hcaller, Running, Statement.role] at hrunning
  have husers : r.object.users = c.object.users := ThreadObject.exec_users ..
  refine ⟨⟨hleaves.slot, ?_, hrunning.thread h.slot (h.retainCount_of_thread hthread)⟩,
    effect_map hleaves.effect rfl⟩
  have hcount := h.references
  simp only [ownReferences, hthread, Option.elim_some] at hcount
  have hexec : r.object.retainCount + statement.references =
      c.object.retainCount + r.next.elim 0 Statement.references :=
    ThreadObject.exec_references u (by omega) hcreate
  simp only [ownReferences, Option.elim_some]
  omega

/-- Other code takes and gives up references in front of any statement. -/
theorem Running.withCounts {o : ThreadObject Thread} {caller : Option (Thread × Statement Thread)}
    {thread : Option (Thread × Option (Statement Thread))} (h : Running creator o caller thread)
    (hpositive : 0 < o.users) {users : ℕ}
    (husers : 0 < users ∨ caller = none ∧ ∃ u statement, thread = some (u, some statement))
    (retainCount : ℕ) :
    Running creator { o with users := users, retainCount := retainCount } caller thread := by
  rcases caller with _ | ⟨t, statement⟩
  · rcases thread with _ | ⟨u, _ | statement⟩
    · replace husers : 0 < users := by simpa using husers
      rw [Running, if_neg (Nat.ne_of_gt hpositive)] at h
      rw [Running, if_neg (Nat.ne_of_gt husers)]
      exact ⟨⟨h.1.1, h.1.2, h.1.3, h.1.4, h.1.5⟩, h.2⟩
    · replace husers : 0 < users := by simpa using husers
      rw [Running, if_neg (Nat.ne_of_gt hpositive)] at h
      rw [Running, if_neg (Nat.ne_of_gt husers)]
      split_ifs at h ⊢ with hjoinable
      · exact ThreadObject.HandedOn.withCounts h users retainCount
      · exact ⟨h.1, h.2.1, h.2.2.1, h.2.2.2.1, h.2.2.2.2⟩
    · obtain ⟨hrole | ⟨-, hzero⟩, hexpects⟩ := h
      · exact ⟨.inl hrole, hexpects.withCounts users retainCount⟩
      · omega
  · replace husers : 0 < users := by simpa using husers
    rcases thread with _ | ⟨u, _ | statement'⟩
    · obtain ⟨hrole | ⟨-, hzero⟩, hexpects⟩ := h
      · exact ⟨.inl ⟨hrole.1, husers⟩, hexpects.withCounts users retainCount⟩
      · omega
    · obtain ⟨hrole | ⟨-, hzero⟩, hexpects, hhanded⟩ := h
      · exact ⟨.inl ⟨hrole.1, husers⟩, hexpects.withCounts users retainCount,
          fun h => (hhanded h).withCounts users retainCount⟩
      · omega
    · obtain ⟨hwaiting, -, hjoin, hrole, hexpects⟩ := h
      exact ⟨hwaiting, husers, hjoin.withCounts users retainCount, hrole,
        hexpects.withCounts users retainCount⟩

theorem Consistent.retain (h : c.Consistent creator) (husers : 0 < c.object.users) :
    let c' := { c with
      object.users := c.object.users + 1
      object.retainCount := c.object.retainCount + 1 }
    Consistent creator c' ∧ c.Effect c' none := by
  intro c'
  refine ⟨⟨h.slot, ?_, h.running.withCounts husers (.inl (by omega)) _⟩, rfl, rfl⟩
  have hcount := h.references
  simp only [ownReferences] at hcount
  simp only [c', ownReferences]
  omega

/-- Behind the last release nobody runs a method of the thread object, and `-dealloc` finds
the argument where the last method has left it. -/
theorem Consistent.last (h : c.Consistent creator) (husers : c.object.users = 1)
    (hcaller : c.caller = none) (hcount : c.object.retainCount = 1) (t : Thread) :
    Running creator { c.object with users := 0, retainCount := 0 }
      (some (t, .performFinalize .dealloc)) c.thread := by
  have hrunning := h.running
  rw [hcaller] at hrunning
  rcases hthread : c.thread with _ | ⟨u, _ | statement⟩
  · obtain ⟨hunused, hdetached⟩ := h.unused hcaller hthread (by omega)
    refine ⟨.inr ⟨rfl, rfl⟩, fun _ => ⟨hunused.holds, hdetached, hunused.accessor⟩, ?_⟩
    exact fun hgained => by simp [hunused.notGained] at hgained
  · rw [hthread, Running, if_neg (by omega)] at hrunning
    refine ⟨.inr ⟨rfl, rfl⟩, ?_, nofun⟩
    split_ifs at hrunning with hjoinable
    · exact hrunning.last.withCounts 0 0
    · obtain ⟨-, hgained, hfinalized, hfinished⟩ := hrunning
      exact ⟨fun h => by simp [hgained] at h,
        fun _ => ⟨hfinalized, .inr ⟨hfinished.1, hfinished.2⟩⟩⟩
  · rw [hthread] at hrunning
    obtain ⟨hrole | ⟨-, hzero⟩, -⟩ := hrunning
    · have := h.retainCount_of_thread hthread hrole
      omega
    · omega

theorem Consistent.release (h : c.Consistent creator) (t : Thread)
    (husers : 1 < c.object.users ∨ c.object.users = 1 ∧ c.caller = none) :
    let c' := { c with
      object.users := c.object.users - 1
      object.retainCount := c.object.retainCount - 1
      caller :=
        if c.object.retainCount = 1 then some (t, .performFinalize .dealloc) else c.caller }
    Consistent creator c' ∧ c.Effect c' none := by
  intro c'
  have hcount := h.references
  by_cases hlast : c.object.retainCount = 1
  · have hc' : c' = { c with
        object.users := 0
        object.retainCount := 0
        caller := some (t, .performFinalize .dealloc) } := by
      have : c.object.users = 1 := by omega
      simp [c', hlast, this]
    have husers' : c.object.users = 1 := by omega
    have hcaller : c.caller = none := by
      obtain husers | husers := husers
      · omega
      · exact husers.2
    rw [hc']
    refine ⟨⟨h.slot, ?_, h.last husers' hcaller hlast t⟩, rfl, rfl⟩
    have hown : c.ownReferences = 0 := by omega
    rw [ownReferences, hcaller, Option.elim_none, Nat.zero_add] at hown
    simp [ownReferences, hown, Statement.references_performFinalize]
  · have hc' : c' = { c with
        object.users := c.object.users - 1
        object.retainCount := c.object.retainCount - 1 } := by
      simp [c', hlast]
    rw [hc']
    refine ⟨⟨h.slot, ?_, h.running.withCounts (by omega) ?_ _⟩, rfl, rfl⟩
    · simp only [ownReferences] at hcount ⊢
      omega
    · obtain husers | ⟨husers, hcaller⟩ := husers
      · exact .inl (by omega)
      · refine .inr ⟨hcaller, ?_⟩
        rw [ownReferences, hcaller] at hcount
        rcases hthread : c.thread with _ | ⟨u, _ | statement⟩
        · simp [hthread] at hcount
          omega
        · simp [hthread] at hcount
          omega
        · exact ⟨u, statement, rfl⟩

/-- Whose argument it is. -/
structure Handling (creator : Thread) (c : Control Thread) : Prop where
  /-- Before the start, the creator's. -/
  unstarted : 0 < c.object.users → c.thread = none →
    (∀ t u, c.caller ≠ some (t, .createThread u)) → c.object.accessor = some creator
  /-- Between start and gain, nobody's. -/
  starting : ∀ t u, c.caller = some (t, .createThread u) → c.object.accessor = none
  created : ∀ u, c.thread = some (u, some .newPoolConfiguration) ∨ c.thread = some (u, some .gain) →
    c.object.accessor = none
  /-- Between gain and `-finalize`, the new thread's. -/
  running : ∀ u statement, c.thread = some (u, some statement) → statement.usesArgument = true →
    c.object.accessor = some u
  /-- Until it is joined, nobody's. -/
  ended : ∀ u, c.thread = some (u, none) → 0 < c.object.users → c.object.isJoinable = true →
    c.object.isDetached = false → c.object.accessor = none
  /-- Behind the gain of `-mulleJoin`, the joining thread's. -/
  joined : ∀ t, c.caller = some (t, .autoreleaseInJoin) → c.object.accessor = some t
  /-- Behind the gain of `-dealloc`, the deallocating thread's. -/
  deallocating : ∀ t statement,
    c.caller = some (t, statement) ∨ c.thread = some (t, some statement) →
    statement = .releaseInvocation ∨ statement = .releaseFunctionArgument →
    c.object.threadDidGainAccess = true → c.object.holds = true → c.object.accessor = some t

/-- When the thread object is gone, it has given up its argument. -/
theorem Consistent.finished (h : c.Consistent creator) (hdeallocated : c.IsDeallocated) :
    c.object.Finished := by
  obtain ⟨husers, hcaller, hthread⟩ := hdeallocated
  have hrunning := h.running
  rw [hcaller] at hrunning
  rcases hended : c.thread with _ | ⟨u, next⟩
  · rwa [hended, Running, if_pos husers] at hrunning
  · obtain rfl : next = none := hthread (u, next) hended
    rwa [hended, Running, if_pos husers] at hrunning

theorem Consistent.handling (h : c.Consistent creator) : c.Handling creator := by
  have hrunning := h.running
  constructor
  · intro husers hthread hcreate
    rw [hthread] at hrunning
    rcases hcaller : c.caller with _ | ⟨t, statement⟩
    · exact (h.unused hcaller hthread husers).1.accessor
    · rw [hcaller] at hrunning
      obtain ⟨⟨hrole, -⟩ | ⟨-, hzero⟩, hexpects⟩ := hrunning
      · refine (ThreadObject.unused_of_start hrole (fun u hu => ?_) hexpects).accessor
        exact hcreate t u (hu ▸ hcaller)
      · omega
  · intro t u hcaller
    rw [hcaller] at hrunning
    exact hrunning.expects_caller.accessor
  · rintro u (hthread | hthread)
    · rw [hthread] at hrunning
      exact hrunning.expects_thread.accessor
    · rw [hthread] at hrunning
      exact hrunning.expects_thread.accessor
  · intro u statement hthread huses
    rw [hthread] at hrunning
    exact ThreadObject.accessor_of_usesArgument huses hrunning.expects_thread
  · intro u hthread husers hjoinable hdetached
    rw [hthread] at hrunning
    rcases hcaller : c.caller with _ | ⟨t, statement⟩
    · rw [hcaller, Running, if_neg (by omega), if_pos hjoinable] at hrunning
      exact (hrunning.undetached hdetached).2
    · rw [hcaller] at hrunning
      obtain ⟨⟨hrole, -⟩ | ⟨-, hzero⟩, hexpects, hhanded⟩ := hrunning
      · have hjoin := ThreadObject.eq_join_of_isJoinable hrole hjoinable hexpects
        exact ((hhanded hjoin).undetached hdetached).2
      · omega
  · intro t hcaller
    rw [hcaller] at hrunning
    exact hrunning.expects_caller.2.accessor
  · rintro t statement hstatement hlast hgained hholds
    have hexpects : c.object.Expects creator t statement := by
      obtain hcaller | hthread := hstatement
      · rw [hcaller] at hrunning
        exact hrunning.expects_caller
      · rw [hthread] at hrunning
        exact hrunning.expects_thread
    obtain rfl | rfl := hlast
    · exact hexpects.gained hgained hholds
    · exact hexpects.1.gained hgained hholds

/-- The steps, one constructor for each way to take one. -/
inductive Steps (c : Control Thread) :
    ControlAct Thread → Option (Thread × Call) → Control Thread → Prop
  | start {t u : Thread} : c.caller = none → c.thread = none → 0 < c.object.users →
      Steps c (.start t u) none { c with caller := some (t, .setDetached u) }
  | mulleStart {t u : Thread} : c.caller = none → c.thread = none → 0 < c.object.users →
      Steps c (.mulleStart t u) none { c with caller := some (t, .retain u) }
  | mulleJoin {t : Thread} : c.object.isDetached = false → c.caller = none →
      c.object.isJoinable = true → 0 < c.object.users →
      Steps c (.mulleJoin t) none { c with caller := some (t, .join) }
  | retain : 0 < c.object.users →
      Steps c .retain none
        { c with
          object.users := c.object.users + 1
          object.retainCount := c.object.retainCount + 1 }
  | release {t : Thread} : 1 < c.object.users ∨ c.object.users = 1 ∧ c.caller = none →
      Steps c (.release t) none
        { c with
          object.users := c.object.users - 1
          object.retainCount := c.object.retainCount - 1
          caller :=
            if c.object.retainCount = 1 then some (t, .performFinalize .dealloc) else c.caller }
  | createThread {t u : Thread} : c.caller = some (t, .createThread u) →
      Steps c .runCaller none
        { object := (c.object.exec t (.createThread u)).object
          caller := none
          thread := some (u, some .newPoolConfiguration) }
  | runCaller {t : Thread} {statement : Statement Thread} : c.caller = some (t, statement) →
      c.goesOn statement = true → (∀ u, statement ≠ .createThread u) →
      Steps c .runCaller ((c.object.exec t statement).call.map (t, ·))
        { c with
          object := (c.object.exec t statement).object
          caller := (c.object.exec t statement).next.map (t, ·) }
  | runThread {u : Thread} {statement : Statement Thread} :
      c.thread = some (u, some statement) →
      Steps c .runThread ((c.object.exec u statement).call.map (u, ·))
        { c with
          object := (c.object.exec u statement).object
          thread := some (u, (c.object.exec u statement).next) }

variable [DecidableEq Thread] {act : ControlAct Thread}

theorem steps_of_step (hs : c.step act = some (call, c')) : c.Steps act call c' := by
  cases act with
  | start t u | mulleStart t u =>
    simp only [Control.step] at hs
    split at hs
    next hcond =>
      obtain ⟨rfl, rfl⟩ := Prod.mk.inj (Option.some.inj hs)
      obtain ⟨hcaller, hthread, husers, -⟩ := hcond
      constructor <;> assumption
    · cases hs
  | mulleJoin t =>
    simp only [Control.step] at hs
    split_ifs at hs with hdetached hcond
    obtain ⟨rfl, rfl⟩ := Prod.mk.inj (Option.some.inj hs)
    exact .mulleJoin (by simpa using hdetached) hcond.1 hcond.2.1 hcond.2.2.1
  | retain =>
    simp only [Control.step] at hs
    split_ifs at hs with hcond
    obtain ⟨rfl, rfl⟩ := Prod.mk.inj (Option.some.inj hs)
    exact .retain hcond
  | release t =>
    simp only [Control.step] at hs
    split at hs
    next hcond =>
      obtain ⟨rfl, rfl⟩ := Prod.mk.inj (Option.some.inj hs)
      exact .release hcond
    · cases hs
  | runCaller =>
    simp only [Control.step] at hs
    split at hs
    next t statement hcaller =>
      split at hs
      next hgoesOn =>
        obtain ⟨rfl, rfl⟩ := Prod.mk.inj (Option.some.inj hs)
        cases statement with
        | createThread u => exact .createThread hcaller
        | _ => exact .runCaller hcaller hgoesOn (by simp)
      · cases hs
    · cases hs
  | runThread =>
    simp only [Control.step] at hs
    split at hs
    next u statement hthread =>
      obtain ⟨rfl, rfl⟩ := Prod.mk.inj (Option.some.inj hs)
      exact .runThread hthread
    · cases hs

/-- A step keeps the invariant, and does to the argument what its call says. -/
theorem Consistent.step (h : c.Consistent creator) (hs : c.step act = some (call, c')) :
    c'.Consistent creator ∧ c.Effect c' call := by
  cases steps_of_step hs with
  | start hcaller hthread husers => exact h.start hcaller hthread husers (.inl rfl)
  | mulleStart hcaller hthread husers => exact h.start hcaller hthread husers (.inr rfl)
  | mulleJoin hdetached hcaller hjoinable husers =>
    exact h.mulleJoin hdetached hcaller hjoinable husers _
  | retain husers => exact h.retain husers
  | release husers => exact h.release _ husers
  | createThread hcaller => exact h.createThread hcaller
  | runCaller hcaller hgoesOn hcreate => exact h.runCaller hcaller hgoesOn hcreate
  | runThread hthread => exact h.runThread hthread

/-- A thread that starts the new one has called `-start` or `-mulleStart`, and does nothing with
the argument but relinquish access. -/
theorem Consistent.start_step (h : c.Consistent creator) (hs : c.step act = some (call, c'))
    {t : Thread} {statement : Statement Thread} (hcaller : c'.caller = some (t, statement))
    (hrole : statement.role = .start) :
    ((∃ u, act = .start t u ∨ act = .mulleStart t u) ∧ call = none) ∨
      (∃ before, c.caller = some (t, before) ∧ before.role = .start) ∧
        (call = none ∨ call = some (t, .relinquish)) := by
  have hrunning := h.running
  cases steps_of_step hs with
  | @start _ u =>
    obtain ⟨rfl, rfl⟩ := Prod.mk.inj (Option.some.inj hcaller)
    exact .inl ⟨⟨u, .inl rfl⟩, rfl⟩
  | @mulleStart _ u =>
    obtain ⟨rfl, rfl⟩ := Prod.mk.inj (Option.some.inj hcaller)
    exact .inl ⟨⟨u, .inr rfl⟩, rfl⟩
  | mulleJoin =>
    obtain ⟨rfl, rfl⟩ := Prod.mk.inj (Option.some.inj hcaller)
    cases hrole
  | retain => exact .inr ⟨⟨statement, hcaller, hrole⟩, .inl rfl⟩
  | release =>
    dsimp only at hcaller
    split_ifs at hcaller
    · obtain ⟨rfl, rfl⟩ := Prod.mk.inj (Option.some.inj hcaller)
      cases hrole
    · exact .inr ⟨⟨statement, hcaller, hrole⟩, .inl rfl⟩
  | createThread => cases hcaller
  | @runCaller t' before hbefore =>
    obtain ⟨next, hnext, heq⟩ := Option.map_eq_some_iff.mp hcaller
    obtain ⟨rfl, rfl⟩ := Prod.mk.inj heq
    obtain ⟨hsame, -⟩ | ⟨-, -, rfl⟩ := ThreadObject.role_of_mem_next hnext
    · have hstart := hsame.symm.trans hrole
      refine .inr ⟨⟨before, hbefore, hstart⟩, ?_⟩
      obtain hcall | hcall := ThreadObject.call_of_start (t := t') (o := c.object) hstart
      · exact .inl (by rw [hcall]; rfl)
      · exact .inr (by rw [hcall]; rfl)
    · cases hrole
  | runThread hthread =>
    dsimp only at hcaller
    rw [hcaller, hthread] at hrunning
    obtain ⟨rfl, -⟩ := hrunning
    cases hrole

/-- Access is relinquished by the thread that starts the new one, or by the one that has it. -/
theorem Consistent.relinquish_step (h : c.Consistent creator) {t : Thread}
    (hs : c.step act = some (some (t, .relinquish), c')) :
    (∃ statement, c.caller = some (t, statement) ∧ statement.role = .start) ∨
      c.object.accessor = some t := by
  have hrunning := h.running
  generalize hcall : some (t, Call.relinquish) = call at hs
  cases steps_of_step hs with
  | runCaller hcaller =>
    obtain ⟨call, hexec, heq⟩ := Option.map_eq_some_iff.mp hcall.symm
    obtain ⟨rfl, rfl⟩ := Prod.mk.inj heq
    obtain hrole | ⟨next, rfl⟩ := ThreadObject.of_call_relinquish hexec
    · exact .inl ⟨_, hcaller, hrole⟩
    · rw [hcaller] at hrunning
      cases next with
      | exit => exact absurd rfl hrunning.role_ne_thread
      | dealloc => exact hrunning.expects_caller.elim
  | runThread hthread =>
    obtain ⟨call, hexec, heq⟩ := Option.map_eq_some_iff.mp hcall.symm
    obtain ⟨rfl, rfl⟩ := Prod.mk.inj heq
    rw [hthread] at hrunning
    obtain hrole | ⟨next, rfl⟩ := ThreadObject.of_call_relinquish hexec
    · have hthread := hrunning.role_thread
      simp [hrole] at hthread
    · cases next with
      | exit => exact .inr hrunning.expects_thread.1.accessor
      | dealloc => exact hrunning.expects_thread.elim
  | _ => cases hcall

end Control

end MulleObjC.NSThread
