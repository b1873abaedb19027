import Mathlib.Data.List.ReduceOption
import MulleObjC.Pool.Return

/-!
# The pools as a stack of lists

Without pages, holes and frames, a thread has a stack of pools, and a pool is a list of entries. The
entries that are being released stand apart from their pool, so that what a `-dealloc` autoreleases
meanwhile is not mixed up with them. What is done to the pages shows as steps of this stack, with the
same reports.
-/

namespace MulleObjC.Pool

open Machine

variable {Obj : Type*}

/-- The stack of pools, with the oldest entry of a pool first. -/
structure Stack (Obj : Type*) where
  /-- The current pool, and the pools below. -/
  pools : List (ℕ × List Obj)
  /-- What is being released of which pool, innermost first. -/
  drains : List (ℕ × List Obj)

namespace Stack

/-- The entries of a pool. -/
def entriesOf (pool : ℕ) : List (ℕ × List Obj) → List Obj
  | [] => []
  | (a, entries) :: owner => if a = pool then entries else entriesOf pool owner

/-- Change the entries of a pool. -/
def modify (pool : ℕ) (f : List Obj → List Obj) : List (ℕ × List Obj) → List (ℕ × List Obj)
  | [] => []
  | (a, entries) :: owner =>
    if a = pool then (a, f entries) :: owner else (a, entries) :: modify pool f owner

/-- What can be done to a stack of pools. -/
inductive Act (Obj : Type*)
  | push (pool : ℕ)
  | add (ps : List Obj)
  /-- The entries of a pool are taken out, to be released. -/
  | drain (pool : ℕ)
  /-- The newest of the entries that were taken out last is released. -/
  | release
  /-- All entries that were taken out last are released. -/
  | drained
  | pop
  /-- A single entry is taken out of a pool and released. -/
  | remove (pool i : ℕ)

/-- No pool. -/
def init : Stack Obj := ⟨[], []⟩

/-- One step. A pool is popped when it is empty, and none of its entries is being released. -/
def step (s : Stack Obj) : Act Obj → Option (List (Event Obj) × Stack Obj)
  | .push pool =>
    if pool ∈ s.pools.map Prod.fst then none
    else some ([.pushed pool], { s with pools := (pool, []) :: s.pools })
  | .add ps =>
    match s.pools with
    | [] => none
    | (pool, entries) :: owner =>
      some (ps.map (Event.added pool), { s with pools := (pool, entries ++ ps) :: owner })
  | .drain pool =>
    if pool ∈ s.pools.map Prod.fst then
      some ([], ⟨modify pool (fun _ => []) s.pools, (pool, entriesOf pool s.pools) :: s.drains⟩)
    else none
  | .release =>
    match s.drains with
    | [] => none
    | (pool, entries) :: drains =>
      entries.getLast?.map fun p =>
        ([.released pool p], { s with drains := (pool, entries.dropLast) :: drains })
  | .drained =>
    match s.drains with
    | (_, []) :: drains => some ([], { s with drains := drains })
    | _ => none
  | .pop =>
    match s.pools with
    | (pool, []) :: owner =>
      if pool ∈ s.drains.map Prod.fst then none
      else some ([.popped pool], { s with pools := owner })
    | _ => none
  | .remove pool i =>
    (entriesOf pool s.pools)[i]?.map fun p =>
      ([.released pool p], { s with pools := modify pool (·.eraseIdx i) s.pools })

end Stack

/-- The entries of a chain of pages, oldest first. -/
def Storage.entryList (storage : Storage Obj) : List Obj := storage.slots.reduceOption

/-- The entries that a function has detached from a pool and not released yet. -/
def Frame.drain? : Frame Obj → Option (ℕ × List Obj)
  | .releaseAndFree pool objects q => some (pool, q.entryList ++ objects.reverse.reduceOption)
  | _ => none

/-- The pools of a stack with their entries. -/
def withEntries (pools : List (NSAutoreleasePool Obj)) : List (ℕ × List Obj) :=
  pools.map fun pool => (pool.address, pool.storage.entryList)

/-- What the pools of a thread are for. -/
def State.stack (s : State Obj) : Stack Obj where
  pools := withEntries s.config.pools
  drains := s.frames.filterMap Frame.drain?

section Pages

variable {pools : List (NSAutoreleasePool Obj)} {pool : ℕ}

@[simp] theorem withEntries_cons (p : NSAutoreleasePool Obj) (owner : List (NSAutoreleasePool Obj)) :
    withEntries (p :: owner) = (p.address, p.storage.entryList) :: withEntries owner := rfl

theorem map_fst_withEntries : (withEntries pools).map Prod.fst = addresses pools := by
  simp [addresses, withEntries]

theorem entriesOf_withEntries :
    Stack.entriesOf pool (withEntries pools) = (storageOf pool pools).entryList := by
  induction pools with
  | nil => rfl
  | cons p owner ih =>
    rw [withEntries_cons, Stack.entriesOf, storageOf]
    split
    · rfl
    · exact ih

theorem withEntries_modifyStorage {f : Storage Obj → Storage Obj} {g : List Obj → List Obj}
    (h : (f (storageOf pool pools)).entryList = g (storageOf pool pools).entryList) :
    withEntries (modifyStorage pool f pools) = Stack.modify pool g (withEntries pools) := by
  induction pools with
  | nil => rfl
  | cons p owner ih =>
    rw [storageOf] at h
    rw [modifyStorage, withEntries_cons, Stack.modify]
    split
    next hp =>
      rw [if_pos hp] at h
      rw [withEntries_cons, h]
    next hp =>
      rw [if_neg hp] at h
      rw [withEntries_cons]
      exact congrArg (List.cons _) (ih h)

/-- Clearing a slot takes out one entry. -/
theorem reduceOption_set {objects : List (Option Obj)} {q : ℕ} {obj : Obj}
    (hslot : objects[q]? = some (some obj)) : ∃ newer older,
      objects.reduceOption = older ++ obj :: newer ∧
        (objects.set q none).reduceOption = older ++ newer := by
  obtain ⟨hq, hget⟩ := List.getElem?_eq_some_iff.mp hslot
  refine ⟨(objects.drop (q + 1)).reduceOption, (objects.take q).reduceOption, ?_, ?_⟩
  · conv_lhs => rw [← List.take_append_drop q objects, List.drop_eq_getElem_cons hq, hget]
    rw [List.reduceOption_append, List.reduceOption_cons_of_some]
  · rw [List.set_eq_take_append_cons_drop, if_pos hq, List.reduceOption_append,
      List.reduceOption_cons_of_none]

/-- Clearing a slot of a chain takes out one entry. -/
theorem entries_clearAt {storage : Storage Obj} {below q : ℕ} {array : PointerArray Obj}
    (hpage : storage.pageAt below = some array) {obj : Obj}
    (hslot : array.objects[q]? = some (some obj)) : ∃ i, storage.entryList[i]? = some obj ∧
      (storage.clearAt below q).entryList = storage.entryList.eraseIdx i := by
  suffices h : ∃ newer older, storage.entryList = older ++ obj :: newer ∧
      (storage.clearAt below q).entryList = older ++ newer by
    obtain ⟨newer, older, hentries, hclear⟩ := h
    refine ⟨older.length, by simp [hentries], ?_⟩
    rw [hentries, hclear, List.eraseIdx_append_of_length_le le_rfl]
    simp
  induction storage with
  | nil => cases hpage
  | cons top previous ih =>
    rw [Storage.pageAt] at hpage
    rw [Storage.clearAt]
    split at hpage
    case isTrue hbelow =>
      obtain rfl := Option.some.inj hpage
      obtain ⟨newer, older, hobjects, hset⟩ := reduceOption_set hslot
      refine ⟨newer, Storage.entryList previous ++ older, ?_, ?_⟩
      · rw [Storage.entryList, Storage.slots, List.reduceOption_append, hobjects, List.append_assoc]
        rfl
      · rw [if_pos hbelow, Storage.entryList, Storage.slots, List.reduceOption_append,
          PointerArray.objects_clear, hset, List.append_assoc]
        rfl
    case isFalse hbelow =>
      obtain ⟨newer, older, hentries, hclear⟩ := ih hpage
      rw [if_neg hbelow]
      refine ⟨newer ++ top.objects.reduceOption, older, ?_, ?_⟩
      · rw [Storage.entryList, Storage.slots, List.reduceOption_append]
        change Storage.entryList previous ++ _ = _
        rw [hentries, List.append_assoc, List.cons_append]
      · rw [Storage.entryList, Storage.slots, List.reduceOption_append]
        change Storage.entryList (Storage.clearAt previous below q) ++ _ = _
        rw [hclear, List.append_assoc]

end Pages

variable [DecidableEq Obj] {isConstant : Obj → Bool} {s s' : State Obj} {act : Act Obj}
  {es : List (Event Obj)}

/-- The entries stay the same while the loop skips holes and goes to the next page. -/
theorem drain?_advance {pool : ℕ} {objects objects' : List (Option Obj)} {q q' : Storage Obj}
    {rest : List (Frame Obj)} (hframes : s.frames = .releaseAndFree pool objects q :: rest)
    (h : s.step isConstant act = some ([], s'))
    (hframes' : s'.frames = .releaseAndFree pool objects' q' :: rest) :
    Frame.drain? (.releaseAndFree pool objects' q') =
      Frame.drain? (.releaseAndFree pool objects q) := by
  cases takes_of_step h with
  | releasePoolObjects hnone =>
    rw [hframes] at hnone
    cases hnone
  | releaseAllPoolObjects hnone =>
    rw [hframes] at hnone
    cases hnone
  | call hcode =>
    rcases hcode with ⟨hnone, -⟩ | ⟨rest', hdealloc⟩
    · rw [hframes] at hnone
      cases hnone
    · rw [hframes] at hdealloc
      cases hdealloc
  | leave hdealloc =>
    rw [hframes] at hdealloc
    cases hdealloc
  | run hrun h =>
    rw [hframes] at hrun
    obtain ⟨rfl, rfl⟩ := List.cons.inj hrun
    rcases objects with - | ⟨- | opfer, objects⟩
    · cases q with
      | nil =>
        obtain ⟨-, rfl⟩ := Prod.mk.inj (Option.some.inj h)
        exact absurd hframes' (List.cons_ne_self _ _).symm
      | cons array previous =>
        obtain ⟨-, rfl⟩ := Prod.mk.inj (Option.some.inj h)
        obtain ⟨-, rfl, rfl⟩ := Frame.releaseAndFree.inj (List.cons.inj hframes').1
        simp [Frame.drain?, Storage.entryList, Storage.slots, List.reduceOption_append]
    · obtain ⟨-, rfl⟩ := Prod.mk.inj (Option.some.inj h)
      obtain ⟨-, rfl, rfl⟩ := Frame.releaseAndFree.inj (List.cons.inj hframes').1
      simp [Frame.drain?, List.reduceOption_append]
    · cases (Prod.mk.inj (Option.some.inj h)).1

omit [DecidableEq Obj] in
/-- Removals detach nothing. -/
theorem filterMap_drain? {fs rest : List (Frame Obj)}
    (hfs : ∀ frame ∈ fs, frame.IsReleaseObjects) :
    (fs ++ rest).filterMap Frame.drain? = rest.filterMap Frame.drain? := by
  have hnone : fs.filterMap Frame.drain? = [] := by
    rw [List.filterMap_eq_nil_iff]
    intro frame hframe
    obtain ⟨ps, owners, pool, below, q, rfl⟩ := hfs frame hframe
    rfl
  rw [List.filterMap_append, hnone, List.nil_append]

omit [DecidableEq Obj] in
/-- What is being released belongs to pools of the stack. -/
theorem mem_of_drains {frames : List (Frame Obj)} {ids : List ℕ} (hdisc : Disciplined frames ids)
    {pool : ℕ} (hmem : pool ∈ (frames.filterMap Frame.drain?).map Prod.fst) : pool ∈ ids := by
  induction frames generalizing ids with
  | nil => cases hmem
  | cons frame rest ih =>
    cases frame with
    | dealloc floor => exact List.mem_of_mem_drop (ih hdisc.2 hmem)
    | releaseAll a popTo =>
      cases popTo with
      | none => exact ih hdisc.2 hmem
      | some aPool => exact (after_suffix id aPool ids).subset (ih hdisc.2.2 hmem)
    | releaseAndFree a objects q =>
      rcases List.mem_cons.mp hmem with rfl | hmem
      · exact hdisc.1
      · exact ih hdisc.2 hmem
    | releaseObjects ps owners a below q => exact ih hdisc hmem

/-- A release shows in the frames as what is left to release. -/
theorem drains_releaseEntry (s : State Obj) (p : Obj) (dealloc : Bool) (frames : List (Frame Obj)) :
    (s.releaseEntry p dealloc frames).stack =
      ⟨withEntries s.config.pools, frames.filterMap Frame.drain?⟩ := by
  cases dealloc <;> rfl

omit [DecidableEq Obj] in
/-- A pop finds its pool empty, with none of its entries being released. -/
theorem stack_pop (hs : s.Sound) {pool aPool : ℕ} {rest : List (Frame Obj)}
    (hframes : s.frames = .releaseAll pool (some aPool) :: rest)
    (hstorage : storageOf pool s.config.pools = []) :
    Stack.step s.stack .pop = some ([.popped pool],
      ⟨withEntries (after NSAutoreleasePool.address pool s.config.pools),
        rest.filterMap Frame.drain?⟩) := by
  have hdisc := hs.disciplined
  rw [hframes] at hdisc
  obtain ⟨hhead, -, hrest⟩ := hdisc
  obtain ⟨p, owner, hpools, hp, hof⟩ := storageOf_head hhead
  have hnodup := hs.nodup
  rw [hpools, addresses_cons, hp, List.nodup_cons] at hnodup
  have hfree : pool ∉ (rest.filterMap Frame.drain?).map Prod.fst := by
    intro hmem
    have hbelow := mem_of_drains hrest hmem
    rw [hpools, addresses_cons, hp, after] at hbelow
    split at hbelow
    · exact hnodup.1 hbelow
    · exact hnodup.1 ((after_suffix id aPool _).subset hbelow)
  have hentries : p.storage.entryList = [] := by
    rw [← hof, hstorage]
    rfl
  have hdrains : s.frames.filterMap Frame.drain? = rest.filterMap Frame.drain? := by
    rw [hframes]
    rfl
  simp only [Stack.step, State.stack, hpools, withEntries_cons, hentries, hdrains, hp, if_neg hfree,
    after, if_true]

/-- What a change of the pages shows as. -/
theorem step_stack (h : s.step isConstant act = some (es, s')) (hs : s.Sound) :
    (es = [] ∧ s'.stack = s.stack) ∨ ∃ a, Stack.step s.stack a = some (es, s'.stack) := by
  have hdisc := hs.disciplined
  cases step_change h with
  | push hcode =>
    right
    have hnew : s.nextPool ∉ s.stack.pools.map Prod.fst := by
      intro hmem
      rw [State.stack, map_fst_withEntries] at hmem
      exact Nat.lt_irrefl _ (hs.lt_nextPool _ hmem)
    exact ⟨.push s.nextPool, by rw [Stack.step, if_neg hnew]; rfl⟩
  | @add floor hcode pool owner hpools storage ps hslots map =>
    right
    refine ⟨.add ps, ?_⟩
    have hentries : storage.entryList = pool.storage.entryList ++ ps := by
      rw [Storage.entryList, hslots, List.reduceOption_append]
      simp [Storage.entryList, List.reduceOption]
    simp [Stack.step, State.stack, hpools, hentries]
  | idle => exact .inl ⟨rfl, rfl⟩
  | pop => exact .inl ⟨rfl, rfl⟩
  | releaseAllPoolObjects hframes => exact .inl ⟨rfl, by rw [State.stack, State.stack, hframes]; rfl⟩
  | @releasePoolObjects fs rest hframes hfs =>
    left
    refine ⟨rfl, ?_⟩
    rw [State.stack, State.stack, filterMap_drain? hfs]
    rcases hframes with ⟨hframes, rfl⟩ | ⟨frame, hframe, hframes⟩
    · rw [hframes]
    · rw [hframes, ← List.singleton_append,
        filterMap_drain? (by simpa using hframe)]
  | leave hframes => exact .inl ⟨rfl, by rw [State.stack, State.stack, hframes]; rfl⟩
  | @detach pool popTo rest hframes array previous hstorage =>
    right
    refine ⟨.drain pool, ?_⟩
    have hmem := mem_addresses_of_storageOf_ne_nil (hstorage ▸ List.cons_ne_nil array previous)
    rw [← map_fst_withEntries] at hmem
    have hpools : withEntries (modifyStorage pool (fun _ => []) s.config.pools) =
        Stack.modify pool (fun _ => []) (withEntries s.config.pools) :=
      withEntries_modifyStorage rfl
    rw [Stack.step, State.stack, if_pos hmem, entriesOf_withEntries, hstorage]
    simp [State.stack, hpools, hframes, Frame.drain?, Storage.entryList, Storage.slots,
      List.reduceOption_append]
  | emptied hframes => exact .inl ⟨rfl, by rw [State.stack, State.stack, hframes]; rfl⟩
  | popLast hframes hstorage => exact .inr ⟨.pop, stack_pop hs hframes hstorage⟩
  | popNext hne hframes hstorage hafter =>
    right
    have hpop := stack_pop hs hframes hstorage
    rw [hafter] at hpop
    exact ⟨.pop, hpop⟩
  | @release pool opfer objects q rest hframes dealloc =>
    right
    refine ⟨.release, ?_⟩
    have hdrain : Frame.drain? (.releaseAndFree pool (some opfer :: objects) q) =
        some (pool, (q.entryList ++ objects.reverse.reduceOption) ++ [opfer]) := by
      simp [Frame.drain?, List.reduceOption_append]
    have hrest : Frame.drain? (.releaseAndFree pool objects q) =
        some (pool, q.entryList ++ objects.reverse.reduceOption) := rfl
    rw [drains_releaseEntry]
    simp [Stack.step, State.stack, hframes, hdrain, hrest]
  | advance hframes hcount => exact .inl ⟨rfl, by
      rw [State.stack, State.stack, hframes, List.filterMap_cons, List.filterMap_cons,
        drain?_advance hframes h rfl]⟩
  | freed hframes =>
    right
    refine ⟨.drained, ?_⟩
    simp [Stack.step, State.stack, hframes, Frame.drain?, Storage.entryList, Storage.slots]
  | @remove ps owners pool below q rest hframes array hpage obj hslot dealloc =>
    right
    obtain ⟨i, hentry, hclear⟩ := entries_clearAt hpage hslot
    refine ⟨.remove pool i, ?_⟩
    have hpools : withEntries (modifyStorage pool (·.clearAt below q) s.config.pools) =
        Stack.modify pool (·.eraseIdx i) (withEntries s.config.pools) :=
      withEntries_modifyStorage hclear
    have hdrains : s.frames.filterMap Frame.drain? =
        (.releaseObjects ps owners pool below q :: rest).filterMap Frame.drain? := by
      rw [hframes]
      rfl
    rw [drains_releaseEntry]
    simp [Stack.step, State.stack, entriesOf_withEntries, hentry, hpools, hdrains]

/-- The same, when a `-dealloc` may remove objects and empty pools. -/
theorem stepNested_stack (h : s.stepNested isConstant act = some (es, s')) (hs : s.Sound) :
    (es = [] ∧ s'.stack = s.stack) ∨ ∃ a, Stack.step s.stack a = some (es, s'.stack) := by
  rcases stepNested_cases h with hstep | ⟨rfl, gs, rfl, hgs⟩
  · exact step_stack hstep hs
  · refine .inl ⟨rfl, ?_⟩
    rw [State.stack, State.stack]
    rcases hgs with hgs | ⟨pool, -, rfl⟩
    · rw [filterMap_drain? hgs]
    · rfl

/-- Every run of the pages, with removals at any depth, is a run of the stack with the same
reports. -/
theorem stack_of_run (hasMap : Bool)
    (hrun : Run (State.stepNested isConstant) (.init hasMap) es s) :
    Run Stack.step .init es s.stack := by
  have hsimulation : ∃ b, Run Stack.step .init es b ∧ s.Sound ∧ b = s.stack :=
    hrun.simulation (fun s b => s.Sound ∧ b = s.stack) (fun _ hb hstep => by
      obtain ⟨hs, rfl⟩ := hb
      have hs' := sound_stepNested hstep hs
      rcases stepNested_stack hstep hs with ⟨hnone, hsame⟩ | ⟨a', hstep'⟩
      · exact .inl ⟨hnone, hs', hsame.symm⟩
      · exact .inr ⟨a', _, hstep', hs', rfl⟩)
    ⟨sound_init hasMap, rfl⟩
  obtain ⟨b, hstack, -, rfl⟩ := hsimulation
  exact hstack

/-- A pop releases an object, the removal of another one does not reach it any more. -/
theorem stack_of_run_pop : ∃ (s : State ℕ) (es : List (Event ℕ)),
    (Run (State.stepNested fun _ => false) (.init false) es s ∧
      s.stack = ⟨[(0, [])], [(0, [5])]⟩) ∧ Run Stack.step .init es s.stack := by
  have h : ∃ (s : State ℕ) (es : List (Event ℕ)),
      exec (State.stepNested fun _ => false) (.init false)
        [.push, .autorelease 5, .autorelease 6, .pop 0, .run false, .run true,
          .releasePoolObjects [5] true, .leave] = some (es, s) ∧
      s.stack = ⟨[(0, [])], [(0, [5])]⟩ := ⟨_, _, rfl, rfl⟩
  obtain ⟨s, es, hexec, hstack⟩ := h
  have hrun := run_of_exec _ _ _ hexec
  exact ⟨s, es, ⟨hrun, hstack⟩, stack_of_run false hrun⟩

/-- The entries of a chain of detached pages, newest first. -/
def newestFirst (objects : List (Option Obj)) (q : Storage Obj) : List Obj :=
  objects.reduceOption ++ q.entryList.reverse

/-- The reports of the function that runs on top of `depth` others. -/
def reportsAt {Event : Type*} (depth : ℕ) (es : List (ℕ × Event)) : List Event :=
  es.filterMap fun e => if e.1 = depth then some e.2 else none

theorem reportsAt_append {Event : Type*} (depth : ℕ) (es fs : List (ℕ × Event)) :
    reportsAt depth (es ++ fs) = reportsAt depth es ++ reportsAt depth fs :=
  List.filterMap_append

theorem reportsAt_map_mk {Event : Type*} (depth n : ℕ) (es : List Event) :
    reportsAt depth (es.map (Prod.mk n)) = if n = depth then es else [] := by
  rw [reportsAt, List.filterMap_map]
  split
  next hn => simp [hn]
  next hn => simp [hn]

/-- A step of the page loop, between two `-dealloc`s. -/
theorem step_drain {pool : ℕ} {objects : List (Option Obj)} {q : Storage Obj}
    {rest : List (Frame Obj)} (hframes : s.frames = .releaseAndFree pool objects q :: rest)
    (h : s.stepNested isConstant act = some (es, s')) :
    (es = (newestFirst objects q).map (Event.released pool) ∧ s'.frames = rest) ∨
      ∃ inner objects' q', s'.frames = inner ++ .releaseAndFree pool objects' q' :: rest ∧
        es ++ (newestFirst objects' q').map (Event.released pool) =
          (newestFirst objects q).map (Event.released pool) := by
  have hrun : ∃ dealloc, s.runFrame dealloc rest (.releaseAndFree pool objects q) =
      some (es, s') := by
    cases act <;> simp only [State.stepNested, State.step, hframes] at h
    case run dealloc => exact ⟨dealloc, h⟩
    all_goals cases h
  obtain ⟨dealloc, hrun⟩ := hrun
  rcases objects with - | ⟨- | opfer, objects⟩
  · cases q with
    | nil =>
      obtain ⟨rfl, rfl⟩ := Prod.mk.inj (Option.some.inj hrun)
      exact .inl ⟨rfl, rfl⟩
    | cons array previous =>
      obtain ⟨rfl, rfl⟩ := Prod.mk.inj (Option.some.inj hrun)
      refine .inr ⟨[], array.objects.reverse, previous, rfl, ?_⟩
      simp [newestFirst, Storage.entryList, Storage.slots, List.reduceOption, List.filterMap_reverse]
  · obtain ⟨rfl, rfl⟩ := Prod.mk.inj (Option.some.inj hrun)
    exact .inr ⟨[], objects, q, rfl, rfl⟩
  · obtain ⟨rfl, rfl⟩ := Prod.mk.inj (Option.some.inj hrun)
    refine .inr ⟨if dealloc then [.dealloc s.config.pools.length] else [], objects, q, ?_, rfl⟩
    cases dealloc <;> rfl

/-- A page loop is at work above the frames `rest`, and has reported all but what is left. -/
def State.Drains (rest : List (Frame Obj)) (reports : List (Event Obj)) (es : List (ℕ × Event Obj))
    (s : State Obj) (pool : ℕ) : Prop :=
  ∃ inner objects q, s.frames = inner ++ .releaseAndFree pool objects q :: rest ∧
    reportsAt (rest.length + 1) es ++ (newestFirst objects q).map (Event.released pool) = reports

/-- What one step preserves, of the page loop or of a `-dealloc` that it has called. -/
theorem drains_step {rest : List (Frame Obj)} {reports : List (Event Obj)}
    {es : List (ℕ × Event Obj)} {fs : List (Event Obj)} {pool : ℕ} (hs : s.Sound)
    (hdrains : s.Drains rest reports es pool)
    (h : s.stepNested isConstant act = some (fs, s')) :
    let es' := es ++ fs.map (Prod.mk s.frames.length)
    (s'.frames = rest ∧ reportsAt (rest.length + 1) es' = reports) ∨
      s'.Drains rest reports es' pool := by
  obtain ⟨inner, objects, q, hframes, hreports⟩ := hdrains
  dsimp only
  cases inner with
  | nil =>
    have hreport : reportsAt (rest.length + 1) (es ++ fs.map (Prod.mk s.frames.length)) =
        reportsAt (rest.length + 1) es ++ fs := by
      rw [reportsAt_append, reportsAt_map_mk, if_pos (by rw [hframes]; rfl)]
    rcases step_drain hframes h with ⟨hfs, hreturned⟩ | ⟨inner, objects', q', hframes', hfs⟩
    · left
      rw [hreport, hfs]
      exact ⟨hreturned, hreports⟩
    · right
      refine ⟨inner, objects', q', hframes', ?_⟩
      rw [hreport, List.append_assoc, hfs]
      exact hreports
  | cons frame inner =>
    right
    have hdeep : s.frames.length ≠ rest.length + 1 := by
      simp only [hframes, List.length_append, List.length_cons]
      omega
    have habove : s.Above (.releaseAndFree pool objects q :: rest)
        (restored (frame :: inner) (addresses s.config.pools)) := ⟨frame :: inner, hframes, rfl⟩
    have hrunning : s.frames ≠ .releaseAndFree pool objects q :: rest := by
      intro hsame
      apply hdeep
      rw [hsame]
      rfl
    obtain ⟨inner', hframes', -⟩ := above_stepNested h hs habove hrunning
    refine ⟨inner', objects, q, hframes', ?_⟩
    rw [reportsAt_append, reportsAt_map_mk, if_neg hdeep, List.append_nil]
    exact hreports

/-- What one page loop releases, it releases newest first and completely. -/
theorem releases_of_drain {pool : ℕ} {objects : List (Option Obj)} {q : Storage Obj}
    {rest : List (Frame Obj)} {es : List (ℕ × Event Obj)} (hs : s.Sound)
    (hframes : s.frames = .releaseAndFree pool objects q :: rest)
    (hrun : RunWhile (labelled (fun t => t.frames.length) (State.stepNested isConstant))
      (fun t _ => t.frames ≠ rest) s es s')
    (hreturned : s'.frames = rest) :
    reportsAt (rest.length + 1) es = (newestFirst objects q).map (Event.released pool) := by
  have hinv := hrun.invariant_trace (fun es t => t.Sound ∧
      ((t.frames = rest ∧
          reportsAt (rest.length + 1) es = (newestFirst objects q).map (Event.released pool)) ∨
        t.Drains rest ((newestFirst objects q).map (Event.released pool)) es pool))
    (fun hrunning hinv hstep => by
      obtain ⟨fs, hnested, rfl⟩ := labelled_eq_some.mp hstep
      obtain ⟨ht, hdrains⟩ := hinv
      exact ⟨sound_stepNested hnested ht,
        drains_step ht (hdrains.resolve_left fun h => hrunning h.1) hnested⟩)
    ⟨hs, .inr ⟨[], objects, q, hframes, rfl⟩⟩
  obtain ⟨-, ⟨-, hreports⟩ | ⟨inner, objects', q', hstack, -⟩⟩ := hinv
  · exact hreports
  · rw [hreturned] at hstack
    have hlength := congrArg List.length hstack
    simp only [List.length_append, List.length_cons] at hlength
    omega

/-- What a pool holds when `releaseAllObjectsInPool` takes its pages, is released newest first and
completely, whatever the `-dealloc`s push, pop, autorelease, remove and empty meanwhile. -/
theorem releases_of_releaseAll (hasMap : Bool)
    (hreach : Run (State.stepNested isConstant) (.init hasMap) es s) {pool : ℕ} {popTo : Option ℕ}
    {rest : List (Frame Obj)} (hframes : s.frames = .releaseAll pool popTo :: rest)
    (hstorage : storageOf pool s.config.pools ≠ []) {dealloc : Bool} {fs : List (Event Obj)}
    {s₁ s₂ : State Obj} (htake : s.stepNested isConstant (.run dealloc) = some (fs, s₁))
    {gs : List (ℕ × Event Obj)}
    (hrun : RunWhile (labelled (fun t => t.frames.length) (State.stepNested isConstant))
      (fun t _ => t.frames ≠ s.frames) s₁ gs s₂)
    (hreturned : s₂.frames = s.frames) :
    reportsAt (s.frames.length + 1) gs =
      (storageOf pool s.config.pools).entryList.reverse.map (Event.released pool) := by
  have hs := hreach.invariant State.Sound (fun _ hs h => sound_stepNested h hs) (sound_init hasMap)
  have hs₁ := sound_stepNested htake hs
  obtain ⟨array, previous, hpages⟩ := List.exists_cons_of_ne_nil hstorage
  simp only [State.stepNested, State.step, hframes, State.runFrame, hpages] at htake
  obtain ⟨-, rfl⟩ := Prod.mk.inj (Option.some.inj htake)
  rw [hframes] at hrun hreturned ⊢
  rw [releases_of_drain hs₁ rfl hrun hreturned, hpages]
  simp [newestFirst, Storage.entryList, Storage.slots, List.reduceOption, List.filterMap_reverse]

deriving instance DecidableEq for PointerArray
deriving instance DecidableEq for Frame

/-- A `-dealloc` autoreleases a third object into the pool, and empties it. -/
theorem releases_two : ∃ (s s₁ : State ℕ) (es fs : List (Event ℕ)) (gs : List (ℕ × Event ℕ)),
    (Run (State.stepNested fun _ => false) (.init true) es s ∧
      s.stepNested (fun _ => false) (.run false) = some (fs, s₁) ∧
      gs = [(2, .released 0 6), (3, .added 0 7), (5, .released 0 7), (2, .released 0 5)]) ∧
    reportsAt (s.frames.length + 1) gs =
      (storageOf 0 s.config.pools).entryList.reverse.map (Event.released 0) := by
  have h : ∃ (s s₁ s₂ : State ℕ) (es fs : List (Event ℕ)) (gs : List (ℕ × Event ℕ)),
      exec (State.stepNested fun _ => false) (.init true)
        [.push, .autorelease 5, .autorelease 6, .pop 0] = some (es, s) ∧
      s.frames = [.releaseAll 0 (some 0)] ∧ (storageOf 0 s.config.pools).length = 1 ∧
      s.stepNested (fun _ => false) (.run false) = some (fs, s₁) ∧
      execWhile (labelled (fun t => t.frames.length) (State.stepNested fun _ => false))
        (fun t _ => t.frames ≠ s.frames) s₁
        [.run true, .autorelease 7, .releaseAllPoolObjects 0, .run false, .run false, .run false,
          .run false, .leave, .run false, .run false] = some (gs, s₂) ∧
      s₂.frames = s.frames ∧
      gs = [(2, .released 0 6), (3, .added 0 7), (5, .released 0 7), (2, .released 0 5)] :=
    ⟨_, _, _, _, _, _, rfl, rfl, rfl, rfl, rfl, rfl, rfl⟩
  obtain ⟨s, s₁, s₂, es, fs, gs, hexec, hframes, hlength, htake, hwhile, hreturned, hgs⟩ := h
  have hreach := run_of_exec _ _ _ hexec
  have hstorage : storageOf 0 s.config.pools ≠ [] := List.ne_nil_of_length_pos (by omega)
  exact ⟨s, s₁, es, fs, gs, ⟨hreach, htake, hgs⟩,
    releases_of_releaseAll true hreach hframes hstorage htake (runWhile_of_execWhile _ hwhile)
      hreturned⟩

end MulleObjC.Pool
