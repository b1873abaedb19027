import MulleObjC.Pool.Drain

/-!
# Memory in the pools

`MulleObjCAutoreleaseAllocation` hands C memory to the current pool, inside of an object that
nobody else knows. Its `-release` does not count: it frees the memory and the object at once.
The strings of `MulleObjC_asprintf` and of the enumerations live like this.
-/

namespace MulleObjC.Pool

open Machine

/-- A `_MulleObjCAutoreleaseAllocation` that is not deallocated. -/
structure Allocation (Obj Pointer Allocator : Type*) where
  object : Obj
  pointer : Pointer
  allocator : Allocator

/-- A thread with its pools, and the allocations. -/
structure AllocationState (Obj Pointer Allocator : Type*) where
  pools : State Obj
  allocations : List (Allocation Obj Pointer Allocator)

/-- What the thread does. -/
inductive AllocationAct (Obj Pointer Allocator : Type*)
  | pool (act : Act Obj)
  /-- `MulleObjCAutoreleaseAllocation`, with the address of the object, if there is to be one. -/
  | autoreleaseAllocation (pointer : Option Pointer) (allocator : Allocator) (object : Obj)

/-- What is reported. -/
inductive AllocationEvent (Obj Pointer Allocator : Type*)
  | pool (e : Event Obj)
  | handed (pointer : Pointer) (allocator : Allocator)
  /-- `mulle_allocator_free( self->_allocator, self->_pointer)` -/
  | freed (pointer : Pointer) (allocator : Allocator)
  deriving DecidableEq

/-- The objects that a call puts into the current pool. -/
def Act.entries {Obj : Type*} : Act Obj → List Obj
  | .autorelease p => [p]
  | .autoreleaseObjects objects count step => PoolConfiguration.addressed objects count step
  | _ => []

variable {Obj Pointer Allocator : Type*} [DecidableEq Obj] [DecidableEq Pointer]
  [DecidableEq Allocator]

/-- Its object is released. -/
def Allocation.isReleased (a : Allocation Obj Pointer Allocator) (es : List (Event Obj)) : Bool :=
  es.any (Event.isReleased (fun _ => true) a.object)

/-- The memory is this one. -/
def Allocation.owns (pointer : Pointer) (allocator : Allocator)
    (a : Allocation Obj Pointer Allocator) : Bool :=
  a.pointer = pointer && a.allocator = allocator

namespace AllocationState

variable (isConstant : Obj → Bool)

/-- What the pools report, and the memory that goes with it. -/
def reports (s : AllocationState Obj Pointer Allocator) (es : List (Event Obj)) :
    List (AllocationEvent Obj Pointer Allocator) :=
  es.map .pool ++ (s.allocations.filter (·.isReleased es)).map fun a => .freed a.pointer a.allocator

/-- A step. No Objective-C code runs while an allocation is freed. -/
def step (s : AllocationState Obj Pointer Allocator) :
    AllocationAct Obj Pointer Allocator →
      Option (List (AllocationEvent Obj Pointer Allocator) × AllocationState Obj Pointer Allocator)
  | .pool act =>
    (s.pools.stepNested isConstant act).bind fun r =>
      if act matches .run true ∧ s.allocations.any (·.isReleased r.1) then none
      else some (s.reports r.1, ⟨r.2, s.allocations.filter fun a => !a.isReleased r.1⟩)
  | .autoreleaseAllocation none _ _ => some ([], s)
  | .autoreleaseAllocation (some pointer) allocator object =>
    (s.pools.stepNested isConstant (.autorelease object)).map fun r =>
      (r.1.map .pool ++ [.handed pointer allocator],
        ⟨r.2, ⟨object, pointer, allocator⟩ :: s.allocations⟩)

/-- Nobody knows the object of an allocation, so nobody autoreleases it again. Its memory was
free before, and there is a pool. -/
def Legal (s : AllocationState Obj Pointer Allocator) :
    AllocationAct Obj Pointer Allocator → Prop
  | .pool act => ∀ a ∈ s.allocations, a.object ∉ act.entries
  | .autoreleaseAllocation none _ _ => True
  | .autoreleaseAllocation (some _) _ object =>
    s.pools.config.pools ≠ [] ∧ isConstant object = false ∧
      s.pools.pending (fun _ => true) object = 0

/-- A thread without pools. -/
def init (hasMap : Bool) : AllocationState Obj Pointer Allocator := ⟨.init hasMap, []⟩

end AllocationState

variable {isConstant : Obj → Bool} {s s' : State Obj} {act : Act Obj} {es : List (Event Obj)}
  {p : Obj}

/-- Only what is handed to the pools is added. -/
theorem added_eq_zero (h : s.stepNested isConstant act = some (es, s')) (hp : p ∉ act.entries) :
    es.countP (Event.isAdded (fun _ => true) p) = 0 := by
  have hreconfigures := reconfigures_stepNested h
  generalize s'.config = config' at hreconfigures
  cases hreconfigures with
  | same | detach => rfl
  | push | pop | release | remove => rfl
  | @add pool owner hpools q hq =>
    have hne : q ≠ p := fun heq => hp (heq ▸ List.mem_singleton.mpr rfl)
    simp [Event.isAdded, hne]
  | addObjects hpools objects count step =>
    rw [countP_isAdded_map, if_pos rfl, List.count_map_of_injective _ _ (Option.some_injective Obj)]
    exact List.count_eq_zero.mpr hp

/-- An autorelease is a call by code, which may be that of a `-dealloc`. -/
theorem events_autorelease (h : s.stepNested isConstant (.autorelease p) = some (es, s'))
    (hp : isConstant p = false) : es = s.addedEvents [p] := by
  have hcall : ∃ floor, s.call isConstant floor (.autorelease p) = some (es, s') := by
    unfold State.stepNested State.step at h
    cases hframes : s.frames with
    | nil =>
      simp only [hframes] at h
      exact ⟨0, h⟩
    | cons frame rest =>
      cases frame with
      | dealloc floor =>
        simp only [hframes] at h
        exact ⟨floor, h⟩
      | _ => simp [hframes] at h
  obtain ⟨floor, hcall⟩ := hcall
  simp only [State.call, hp, Bool.false_eq_true, if_false, Option.some.injEq, Prod.mk.injEq] at hcall
  exact hcall.1.symm

/-- An object that is autoreleased has one more entry. -/
theorem pending_autorelease (hs : s.Sound)
    (h : s.stepNested isConstant (.autorelease p) = some (es, s'))
    (hpools : s.config.pools ≠ []) (hp : isConstant p = false) (q : Obj) :
    s'.pending (fun _ => true) q = s.pending (fun _ => true) q + if p = q then 1 else 0 := by
  have hbalance := balance_stepNested h hs (fun _ => true) q
  obtain ⟨pool, owner, hconfig⟩ := List.exists_cons_of_ne_nil hpools
  rw [events_autorelease h hp, State.addedEvents, hconfig, countP_isAdded_map,
    countP_isReleased_map, if_pos rfl] at hbalance
  have hcount : ([p].map some).count (some q) = if p = q then 1 else 0 := by
    simp [List.count_singleton]
  omega

namespace AllocationState

variable {t t' : AllocationState Obj Pointer Allocator}
  {as : List (AllocationEvent Obj Pointer Allocator)} {a : AllocationAct Obj Pointer Allocator}
  {pointer : Pointer} {allocator : Allocator}

/-- The object of every allocation is in the pools once. -/
structure Sound (t : AllocationState Obj Pointer Allocator) : Prop where
  pools : t.pools.Sound
  pending : ∀ x ∈ t.allocations, t.pools.pending (fun _ => true) x.object = 1

/-- The allocations with this memory. -/
def owners (t : AllocationState Obj Pointer Allocator) (pointer : Pointer) (allocator : Allocator) :
    ℕ :=
  t.allocations.countP (Allocation.owns pointer allocator)

/-- What a step does to memory and to the invariant. -/
structure Changes (t t' : AllocationState Obj Pointer Allocator)
    (as : List (AllocationEvent Obj Pointer Allocator)) : Prop where
  sound : t'.Sound
  balance : ∀ pointer allocator,
    as.count (.handed pointer allocator) + t.owners pointer allocator =
      as.count (.freed pointer allocator) + t'.owners pointer allocator

theorem changes_pool (ht : t.Sound) (hlegal : t.Legal isConstant (.pool act))
    (hstep : t.pools.stepNested isConstant act = some (es, s')) :
    Changes t ⟨s', t.allocations.filter fun x => !x.isReleased es⟩ (t.reports es) := by
  refine ⟨⟨sound_stepNested hstep ht.pools, fun x hx => ?_⟩, fun pointer allocator => ?_⟩
  · obtain ⟨hmem, hkept⟩ := List.mem_filter.mp hx
    have hadded := added_eq_zero hstep (hlegal x hmem)
    have hbalance := balance_stepNested hstep ht.pools (fun _ => true) x.object
    have hreleased : es.countP (Event.isReleased (fun _ => true) x.object) = 0 := by
      rw [List.countP_eq_zero]
      simpa [Allocation.isReleased] using hkept
    have hpending := ht.pending x hmem
    change s'.pending (fun _ => true) x.object = 1
    omega
  · have hhanded : (t.reports es).count (.handed pointer allocator) = 0 :=
      List.count_eq_zero.mpr (by simp [reports])
    have hfreed : (t.reports es).count (.freed pointer allocator) =
        (t.allocations.filter (·.isReleased es)).countP (Allocation.owns pointer allocator) := by
      have hnone : (es.map (.pool : _ → AllocationEvent Obj Pointer Allocator)).count
          (.freed pointer allocator) = 0 :=
        List.count_eq_zero.mpr (by simp)
      rw [reports, List.count_append, hnone, Nat.zero_add, List.count, List.countP_map]
      refine List.countP_congr fun x _ => ?_
      simp [Allocation.owns]
    rw [hhanded, hfreed, Nat.zero_add]
    exact List.countP_eq_countP_filter_add _ _ _

theorem changes_step (ht : t.Sound) (hlegal : t.Legal isConstant a)
    (hstep : t.step isConstant a = some (as, t')) : Changes t t' as := by
  cases a with
  | pool act =>
    obtain ⟨⟨es, s'⟩, hpool, hr⟩ := Option.bind_eq_some_iff.mp hstep
    obtain ⟨-, hr⟩ := Option.ite_none_left_eq_some.mp hr
    obtain ⟨rfl, rfl⟩ := Prod.mk.inj (Option.some.inj hr)
    exact changes_pool ht hlegal hpool
  | autoreleaseAllocation pointer? allocator object =>
    cases pointer? with
    | none =>
      obtain ⟨rfl, rfl⟩ := Prod.mk.inj (Option.some.inj hstep)
      exact ⟨ht, fun _ _ => rfl⟩
    | some pointer =>
      obtain ⟨⟨es, s'⟩, hpool, hr⟩ := Option.map_eq_some_iff.mp hstep
      obtain ⟨rfl, rfl⟩ := Prod.mk.inj hr
      obtain ⟨hpools, hconstant, hfresh⟩ := hlegal
      have hpending := pending_autorelease ht.pools hpool hpools hconstant
      refine ⟨⟨sound_stepNested hpool ht.pools, fun x hx => ?_⟩, fun q b => ?_⟩
      · rw [hpending]
        rcases List.mem_cons.mp hx with rfl | hmem
        · rw [hfresh, if_pos rfl]
        · have hold := ht.pending x hmem
          have hne : object ≠ x.object := by
            rintro rfl
            omega
          rw [hold, if_neg hne]
      · have hhanded : (es.map (.pool : _ → AllocationEvent Obj Pointer Allocator)).count
            (.handed q b) = 0 :=
          List.count_eq_zero.mpr (by simp)
        have hfreed : (es.map (.pool : _ → AllocationEvent Obj Pointer Allocator)).count
            (.freed q b) = 0 :=
          List.count_eq_zero.mpr (by simp)
        have hone : [(.handed pointer allocator : AllocationEvent Obj Pointer Allocator)].count
            (.handed q b) = if Allocation.owns q b ⟨object, pointer, allocator⟩ then 1 else 0 := by
          simp [List.count_singleton, Allocation.owns]
        have hnone : [(.handed pointer allocator : AllocationEvent Obj Pointer Allocator)].count
            (.freed q b) = 0 := List.count_eq_zero.mpr (by simp)
        rw [List.count_append, List.count_append, hhanded, hfreed, hone, hnone, owners, owners,
          List.countP_cons]
        omega

omit [DecidableEq Pointer] [DecidableEq Allocator] in
theorem sound_allocationInit (hasMap : Bool) :
    (init hasMap : AllocationState Obj Pointer Allocator).Sound :=
  ⟨sound_init hasMap, fun _ h => by cases h⟩

/-- Memory is freed once, and not while its object is in a pool. Behind the last pool all of it is
free. -/
structure Managed (as : List (AllocationEvent Obj Pointer Allocator))
    (t : AllocationState Obj Pointer Allocator) : Prop where
  balance : ∀ pointer allocator,
    as.count (.handed pointer allocator) =
      as.count (.freed pointer allocator) + t.owners pointer allocator
  pending : ∀ x ∈ t.allocations, t.pools.pending (fun _ => true) x.object = 1
  settled : t.pools.config.pools = [] → ∀ pointer allocator,
    as.count (.handed pointer allocator) = as.count (.freed pointer allocator)

/-- In every run of a thread that pushes and pops pools, autoreleases, removes and releases
objects and runs their `-dealloc`s, and that hands memory to its pools in between. -/
theorem managed_of_run (hasMap : Bool)
    (hrun : RunWhile (step isConstant) (Legal isConstant) (init hasMap) as t) : Managed as t := by
  have hinv : t.Sound ∧ ∀ pointer allocator, as.count (.handed pointer allocator) =
      as.count (.freed pointer allocator) + t.owners pointer allocator := by
    refine hrun.invariant_trace (fun as t => t.Sound ∧ ∀ pointer allocator,
      as.count (.handed pointer allocator) = as.count (.freed pointer allocator) +
        t.owners pointer allocator) ?_ ⟨sound_allocationInit hasMap, fun _ _ => rfl⟩
    intro t a as bs t' hlegal ⟨ht, hbalance⟩ hstep
    have hchanges := changes_step ht hlegal hstep
    refine ⟨hchanges.sound, fun pointer allocator => ?_⟩
    have hold := hbalance pointer allocator
    have hnew := hchanges.balance pointer allocator
    rw [List.count_append, List.count_append]
    omega
  obtain ⟨hsound, hbalance⟩ := hinv
  refine ⟨hbalance, hsound.pending, fun hnone pointer allocator => ?_⟩
  have hallocations : t.allocations = [] := by
    refine List.eq_nil_iff_forall_not_mem.mpr fun x hx => ?_
    have hzero : t.pools.pending (fun _ => true) x.object = 0 :=
      pending_eq_zero hsound.pools (by simp [hnone, addresses])
    have hone := hsound.pending x hx
    omega
  rw [hbalance, owners, hallocations]
  rfl

instance : DecidablePred fun a => Legal isConstant t a := fun a => by
  cases a with
  | pool act => exact inferInstanceAs (Decidable (∀ a ∈ t.allocations, a.object ∉ act.entries))
  | autoreleaseAllocation pointer? allocator object =>
    cases pointer? with
    | none => exact inferInstanceAs (Decidable True)
    | some pointer =>
      exact inferInstanceAs (Decidable (t.pools.config.pools ≠ [] ∧ isConstant object = false ∧
        t.pools.pending (fun _ => true) object = 0))

/-- Two strings in a pool, with an object of the thread's own. -/
theorem managed_of_run_pop : ∃ (as : List (AllocationEvent ℕ Char Unit))
    (t : AllocationState ℕ Char Unit),
    (as.count (.freed 'a' ()) = 1 ∧ t.pools.config.pools = []) ∧ Managed as t := by
  have h : (execWhile (step fun _ : ℕ => false) (Legal fun _ => false) (init false)
      (.pool .push :: .pool (.autorelease 3) :: .autoreleaseAllocation (some 'a') () 7 ::
        .autoreleaseAllocation (some 'b') () 8 :: .pool (.pop 0) ::
        List.replicate 6 (.pool (.run false)))).map
          (fun r => (r.1.count (.freed 'a' ()), r.2.pools.config.pools.length)) = some (1, 0) := by
    decide +kernel
  obtain ⟨⟨as, t⟩, hexec, hr⟩ := Option.map_eq_some_iff.mp h
  obtain ⟨hfreed, hpools⟩ := Prod.mk.inj hr
  have hrun := runWhile_of_execWhile _ hexec
  exact ⟨as, t, ⟨hfreed, List.eq_nil_of_length_eq_zero hpools⟩, managed_of_run false hrun⟩

end AllocationState

end MulleObjC.Pool
