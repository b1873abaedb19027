import MulleObjC.Pool.Nested

/-!
# Calls return to the stack they found

Whatever a `-dealloc` pushes, pops, removes or empties, the functions below it find the pools
they left when it returns.
-/

namespace MulleObjC.Pool

open Machine

variable {Obj : Type*}

/-- The pools that are left when some inner frames have returned. -/
def restored : List (Frame Obj) → List ℕ → List ℕ
  | [], ids => ids
  | .dealloc floor :: rest, ids => restored rest (ids.drop (ids.length - floor))
  | .releaseAll _ (some a) :: rest, ids => restored rest (after id a ids)
  | _ :: rest, ids => restored rest ids

/-- Some frames run above the frames `outer`, and will leave the pools `ids` to them. -/
def State.Above (s : State Obj) (outer : List (Frame Obj)) (ids : List ℕ) : Prop :=
  ∃ inner, s.frames = inner ++ outer ∧ restored inner (addresses s.config.pools) = ids

/-- When the inner frames have returned, the pools are those that were found. -/
theorem State.Above.addresses_eq {s : State Obj} {outer : List (Frame Obj)} {ids : List ℕ}
    (h : s.Above outer ids) (hreturned : s.frames = outer) : addresses s.config.pools = ids := by
  obtain ⟨inner, hframes, hids⟩ := h
  have hinner : inner = [] := List.self_eq_append_left.mp (hreturned.symm.trans hframes)
  rwa [hinner] at hids

/-- Removals leave the pools as they are. -/
theorem restored_append {fs rest : List (Frame Obj)}
    (hfs : ∀ frame ∈ fs, frame.IsReleaseObjects) (ids : List ℕ) :
    restored (fs ++ rest) ids = restored rest ids := by
  induction fs with
  | nil => rfl
  | cons frame fs ih =>
    obtain ⟨ps, owners, pool, below, q, rfl⟩ := hfs frame List.mem_cons_self
    exact ih fun f hf => hfs f (List.mem_cons_of_mem _ hf)

/-- The pools above the floor of a `-dealloc` come and go. -/
theorem restored_dealloc {floor : ℕ} (rest : List (Frame Obj)) {ids ids' : List ℕ}
    (hsuffix : ids <:+ ids') (hfloor : floor ≤ ids.length) :
    restored (.dealloc floor :: rest) ids = restored (.dealloc floor :: rest) ids' := by
  rw [restored, restored, drop_of_suffix hsuffix hfloor]

/-- The innermost frame is one of those above. -/
theorem State.Above.frame {s : State Obj} {outer : List (Frame Obj)} {ids : List ℕ}
    (h : s.Above outer ids) (hrunning : s.frames ≠ outer) {frame : Frame Obj}
    {rest : List (Frame Obj)} (hframes : s.frames = frame :: rest) :
    ∃ inner, rest = inner ++ outer ∧
      restored (frame :: inner) (addresses s.config.pools) = ids := by
  obtain ⟨inner, hstack, hids⟩ := h
  cases inner with
  | nil => exact absurd hstack hrunning
  | cons f inner =>
    rw [hframes] at hstack
    obtain ⟨rfl, rfl⟩ := List.cons.inj hstack
    exact ⟨inner, rfl, hids⟩

/-- Code that runs above is a `-dealloc`. -/
theorem State.Above.code {s : State Obj} {outer : List (Frame Obj)} {ids : List ℕ}
    (h : s.Above outer ids) (hrunning : s.frames ≠ outer) {floor : ℕ} (hcode : s.Code floor) :
    ∃ inner, s.frames = .dealloc floor :: inner ++ outer ∧
      restored (.dealloc floor :: inner) (addresses s.config.pools) = ids := by
  obtain ⟨hframes, -⟩ | ⟨rest, hframes⟩ := hcode
  · obtain ⟨inner, hstack, -⟩ := h
    have hnil := List.append_eq_nil_iff.mp (hstack.symm.trans hframes)
    exact absurd (hframes.trans hnil.2.symm) hrunning
  · obtain ⟨inner, rfl, hids⟩ := h.frame hrunning hframes
    exact ⟨inner, hframes, hids⟩

variable [DecidableEq Obj]

/-- A released entry leaves the pools as they are. -/
theorem State.Above.releaseEntry {s : State Obj} {outer : List (Frame Obj)} {ids : List ℕ}
    (inner : List (Frame Obj)) (hids : restored inner (addresses s.config.pools) = ids) (p : Obj)
    (dealloc : Bool) {frames : List (Frame Obj)} (hframes : frames = inner ++ outer) :
    (s.releaseEntry p dealloc frames).Above outer ids := by
  subst hframes
  cases dealloc with
  | false => exact ⟨inner, rfl, hids⟩
  | true =>
    refine ⟨.dealloc s.config.pools.length :: inner, rfl, ?_⟩
    simpa [restored, State.releaseEntry, length_addresses] using hids

/-- A change by the frames above keeps what they will leave. -/
theorem Change.above {s s' : State Obj} {es : List (Event Obj)} (h : Change s es s')
    (hs : s.Sound) {outer : List (Frame Obj)} {ids : List ℕ} (habove : s.Above outer ids)
    (hrunning : s.frames ≠ outer) : s'.Above outer ids := by
  have hdisc := hs.disciplined
  cases h with
  | push hcode =>
    have hfloor := floor_le_length hcode hdisc
    obtain ⟨inner, hframes, hids⟩ := habove.code hrunning hcode
    refine ⟨.dealloc _ :: inner, hframes, ?_⟩
    rw [← hids]
    exact (restored_dealloc inner (List.suffix_cons _ _) hfloor).symm
  | add hcode hpools =>
    obtain ⟨inner, hframes, hids⟩ := habove
    exact ⟨inner, hframes, by simpa [hpools] using hids⟩
  | idle => exact habove
  | @pop floor hcode tail owner hpools a hmem =>
    obtain ⟨inner, hframes, hids⟩ := habove.code hrunning hcode
    refine ⟨.releaseAll tail.address (some a) :: .dealloc floor :: inner,
      congrArg (List.cons _) hframes, ?_⟩
    rw [← length_addresses] at hmem
    rw [← hids]
    exact restored_dealloc inner (after_suffix _ _ _) (le_length_after hmem)
  | releaseAllPoolObjects hframes =>
    obtain ⟨inner, hstack, -⟩ := habove
    have hnil := List.append_eq_nil_iff.mp (hstack.symm.trans hframes)
    exact absurd (hframes.trans hnil.2.symm) hrunning
  | @releasePoolObjects fs rest hframes hfs =>
    obtain ⟨hrest, hnone⟩ | ⟨frame, ⟨ps, owners, pool, below, q, rfl⟩, hframes⟩ := hframes
    · obtain ⟨inner, hstack, -⟩ := habove
      have hnil := List.append_eq_nil_iff.mp (hstack.symm.trans (hrest.trans hnone))
      exact absurd ((hrest.trans hnone).trans hnil.2.symm) hrunning
    · obtain ⟨inner, rfl, hids⟩ := habove.frame hrunning hframes
      exact ⟨fs ++ inner, (List.append_assoc _ _ _).symm, by rw [restored_append hfs]; exact hids⟩
  | leave hframes =>
    obtain ⟨inner, rfl, hids⟩ := habove.frame hrunning hframes
    rw [restored, length_addresses, Nat.sub_self, List.drop_zero] at hids
    exact ⟨inner, rfl, hids⟩
  | @detach pool popTo rest hframes array previous hstorage =>
    obtain ⟨inner, rfl, hids⟩ := habove.frame hrunning hframes
    refine ⟨.releaseAndFree pool array.objects.reverse previous :: .releaseAll pool popTo :: inner,
      rfl, ?_⟩
    rw [addresses_modifyStorage]
    exact hids
  | emptied hframes =>
    obtain ⟨inner, rfl, hids⟩ := habove.frame hrunning hframes
    exact ⟨inner, rfl, hids⟩
  | popLast hframes =>
    obtain ⟨inner, rfl, hids⟩ := habove.frame hrunning hframes
    refine ⟨inner, rfl, ?_⟩
    rw [addresses_after]
    exact hids
  | @popNext pool a hne rest hframes hstorage tail owner hafter =>
    obtain ⟨inner, rfl, hids⟩ := habove.frame hrunning hframes
    refine ⟨.releaseAll tail.address (some a) :: inner, rfl, ?_⟩
    rw [hframes] at hdisc
    rw [← hids, ← hafter, addresses_after, restored, restored, after_head hdisc.1,
      after_tail_of_ne hdisc.1 hne]
  | @release pool opfer objects q rest hframes dealloc =>
    obtain ⟨inner, rfl, hids⟩ := habove.frame hrunning hframes
    exact State.Above.releaseEntry (.releaseAndFree pool objects q :: inner) hids _ _ rfl
  | @advance pool objects objects' q q' rest hframes =>
    obtain ⟨inner, rfl, hids⟩ := habove.frame hrunning hframes
    exact ⟨.releaseAndFree pool objects' q' :: inner, rfl, hids⟩
  | freed hframes =>
    obtain ⟨inner, rfl, hids⟩ := habove.frame hrunning hframes
    exact ⟨inner, rfl, hids⟩
  | @remove ps owners pool below q rest hframes =>
    obtain ⟨inner, rfl, hids⟩ := habove.frame hrunning hframes
    refine State.Above.releaseEntry (.releaseObjects ps owners pool below q :: inner)
      ?_ _ _ rfl
    rw [addresses_modifyStorage]
    exact hids

omit [DecidableEq Obj] in
/-- A call by a `-dealloc` keeps what it will leave. -/
theorem State.Calls.above {s s' : State Obj} (h : s.Calls s') {outer : List (Frame Obj)}
    {ids : List ℕ} (habove : s.Above outer ids) : s'.Above outer ids := by
  obtain ⟨fs, rfl, hfs⟩ := h
  obtain ⟨inner, hframes, hids⟩ := habove
  refine ⟨fs ++ inner, by rw [hframes, List.append_assoc], ?_⟩
  rcases hfs with hfs | ⟨pool, -, rfl⟩
  · rw [restored_append hfs]
    exact hids
  · exact hids

/-- Every step by the frames above keeps what they will leave. -/
theorem above_stepNested {isConstant : Obj → Bool} {s s' : State Obj} {act : Act Obj}
    {es : List (Event Obj)} (h : s.stepNested isConstant act = some (es, s')) (hs : s.Sound)
    {outer : List (Frame Obj)} {ids : List ℕ} (habove : s.Above outer ids)
    (hrunning : s.frames ≠ outer) : s'.Above outer ids := by
  rcases stepNested_cases h with hstep | ⟨-, hcalls⟩
  · exact (step_change hstep).above hs habove hrunning
  · exact hcalls.above habove

/-- Whatever runs above some frames, they find the pools that were left to them. -/
theorem addresses_of_run {isConstant : Obj → Bool} {s s' : State Obj} {es : List (Event Obj)}
    {outer : List (Frame Obj)} {ids : List ℕ} (hs : s.Sound) (habove : s.Above outer ids)
    (hrun : RunWhile (State.stepNested isConstant) (fun t _ => t.frames ≠ outer) s es s')
    (hreturned : s'.frames = outer) : addresses s'.config.pools = ids := by
  have hinv : s'.Sound ∧ s'.Above outer ids :=
    hrun.invariant (fun t => t.Sound ∧ t.Above outer ids)
      (fun hrunning h hstep =>
        ⟨sound_stepNested hstep h.1, above_stepNested hstep h.1 h.2 hrunning⟩) ⟨hs, habove⟩
  exact hinv.2.addresses_eq hreturned

end MulleObjC.Pool
