import MulleObjC.Copying.Allocator

/-!
# What a clone shares with its source

A walk over the properties replaces what the source has in the ivars of its `copy`
properties and leaves all other ivars of the clone to the bytes of the source. So the
clone is independent of the source exactly if the source has nothing in them. That goes
for plain `char *` ivars as well, which are documented to be duplicated.
-/

namespace MulleObjC.Copying

open Holdings

variable {Ivar Allocator : Type*}

/-- The ivar of a property that `-copyWithAllocator:` copies. -/
def Class.IsCopied (cls : Class Ivar) (v : Ivar) : Prop :=
  ∃ p ∈ walkProperties cls.hierarchy, p.isCopied = true ∧ p.ivar = some v

variable [DecidableEq Ivar] [DecidableEq Allocator]

/-- An ivar is moved from the source to the clone, as a copy or a duplicate. -/
structure Replaces (cls : Class Ivar) (copyWithAllocator : ℕ → ℕ) (v : Ivar) (y : ℕ)
    (info info' : CopyInfo Ivar Allocator) : Prop where
  obj : info'.obj = { info.obj with ivar := Function.update info.obj.ivar v 0 }
  clone : info'.clone = { info.clone with ivar := Function.update info.clone.ivar v y }
  value :
    cls.type v = .object ∧ y = copyWithAllocator (info.obj.ivar v) ∧ info'.world = info.world ∨
    cls.type v = .string ∧ y = info.world.next ∧ info'.world = info.world.strdup (info.obj.ivar v)
  acquisitions : ∀ q, acquisitions info'.events q = acquisitions info.events q +
    if cls.resource info.clone.allocator v y = some q then 1 else 0
  releases : ∀ q, releases info'.events q = releases info.events q +
    if info.obj.held cls v = some q then 1 else 0

variable {cls : Class Ivar} {copyWithAllocator : ℕ → ℕ} {info info' : CopyInfo Ivar Allocator}
  {p : Property Ivar} {v : Ivar}

omit [DecidableEq Ivar] in
theorem Class.type_of_isCopied (hp : p ∈ walkProperties cls.hierarchy) (hcopied : p.isCopied = true)
    (hv : p.ivar = some v) : cls.type v = if p.isCstring then .string else .object := by
  simp only [Property.isCopied, Bool.and_eq_true, Bool.or_eq_true] at hcopied
  have hcopy : p.isCopy = true := hcopied.2.elim (cls.cstring_copy p hp) id
  exact cls.type_ivar p hp (by rw [Property.owns, hcopy, Bool.true_or]) v hv

theorem replaces_duplicate (hworld : info.world.next ≠ 0) (htype : cls.type v = .string)
    (hx : info.obj.ivar v ≠ 0) :
    Replaces cls copyWithAllocator v info.world.next info (info.duplicate v) := by
  have hclear : info.obj.setPropertyCstringNull v =
      ([.released (.string info.obj.allocator (info.obj.ivar v))],
        { info.obj with ivar := Function.update info.obj.ivar v 0 }) := if_neg hx
  have hheld : info.obj.held cls v = some (.string info.obj.allocator (info.obj.ivar v)) :=
    Class.resource_of_string _ htype hx
  have hresource := Class.resource_of_string info.clone.allocator htype hworld
  refine ⟨?_, rfl, .inr ⟨htype, rfl, rfl⟩, ?_, ?_⟩
  · simp only [CopyInfo.duplicate, hclear]
  · intro q
    simp [CopyInfo.duplicate, hclear, hresource]
  · intro q
    simp [CopyInfo.duplicate, hclear, hheld]

omit [DecidableEq Allocator] in
/-- Zeroing the ivar of the source once more changes nothing. -/
theorem copyValue_eq (hx : info.obj.ivar v ≠ 0) : info.copyValue copyWithAllocator p v =
    { info with
      obj := { info.obj with ivar := Function.update info.obj.ivar v 0 }
      clone := { info.clone with
        ivar := Function.update info.clone.ivar v (copyWithAllocator (info.obj.ivar v)) }
      events := info.events ++ (if copyWithAllocator (info.obj.ivar v) = 0 then []
        else [.acquired (.object (copyWithAllocator (info.obj.ivar v)))]) ++
          [.released (.object (info.obj.ivar v))] } := by
  have hclear : info.obj.setPropertyValueNil v =
      ([.released (.object (info.obj.ivar v))],
        { info.obj with ivar := Function.update info.obj.ivar v 0 }) := if_neg hx
  rw [CopyInfo.copyValue, hclear]
  cases p.autoreleaseclear with
  | true => simp [Outcome.andThen, Instance.setPropertyValueNil, Instance.clearIvar]
  | false => rfl

theorem replaces_copyValue (htype : cls.type v = .object) (hx : info.obj.ivar v ≠ 0) :
    Replaces cls copyWithAllocator v (copyWithAllocator (info.obj.ivar v)) info
      (info.copyValue copyWithAllocator p v) := by
  have hheld : info.obj.held cls v = some (.object (info.obj.ivar v)) :=
    Class.resource_of_object _ htype hx
  rw [copyValue_eq hx]
  refine ⟨rfl, rfl, .inl ⟨htype, rfl, rfl⟩, ?_, ?_⟩
  · intro q
    by_cases hvalue : copyWithAllocator (info.obj.ivar v) = 0
    · simp [hvalue]
    · have hresource := Class.resource_of_object info.clone.allocator htype hvalue
      simp [hvalue, hresource]
  · intro q
    by_cases hvalue : copyWithAllocator (info.obj.ivar v) = 0
    · simp [hvalue, hheld]
    · simp [hvalue, hheld]

/-- What the walk does about a property: nothing, if it is not copied or has no value, or
it moves the value. -/
theorem copyProperty_cases
    (hworld : ∀ v, cls.type v = .string → info.world.next ≠ 0)
    (hp : p ∈ walkProperties cls.hierarchy)
    (h : info.copyProperty copyWithAllocator p = some info') :
    info' = info ∧ (p.isCopied = true → ∃ v, p.ivar = some v ∧ info.obj.ivar v = 0) ∨
      ∃ v y, p.isCopied = true ∧ p.ivar = some v ∧ info.obj.ivar v ≠ 0 ∧
        Replaces cls copyWithAllocator v y info info' := by
  unfold CopyInfo.copyProperty at h
  split at h
  · rename_i hdynamic
    refine .inl ⟨(Option.some.inj h).symm, ?_⟩
    simp [Property.isCopied, hdynamic]
  rename_i hdynamic
  split at h
  · rename_i hcstring
    have hcopied : p.isCopied = true := by simp [Property.isCopied, hdynamic, hcstring]
    split at h
    · cases h
    · rename_i v hv
      split at h
      · rename_i hx
        exact .inl ⟨(Option.some.inj h).symm, fun _ => ⟨v, hv, hx⟩⟩
      · rename_i hx
        obtain rfl := Option.some.inj h
        have htype := Class.type_of_isCopied hp hcopied hv
        rw [if_pos hcstring] at htype
        exact .inr ⟨v, _, hcopied, hv, hx, replaces_duplicate (hworld v htype) htype hx⟩
  rename_i hcstring
  split at h
  · rename_i hcopy
    refine .inl ⟨(Option.some.inj h).symm, ?_⟩
    simp [Property.isCopied, hdynamic, hcstring, Bool.not_eq_true' .. ▸ hcopy]
  · rename_i hcopy
    have hcopied : p.isCopied = true := by simpa [Property.isCopied, hdynamic, hcstring] using hcopy
    split at h
    · cases h
    · rename_i v hv
      split at h
      · rename_i hx
        exact .inl ⟨(Option.some.inj h).symm, fun _ => ⟨v, hv, hx⟩⟩
      · rename_i hx
        obtain rfl := Option.some.inj h
        have htype := Class.type_of_isCopied hp hcopied hv
        rw [if_neg hcstring] at htype
        exact .inr ⟨v, _, hcopied, hv, hx, replaces_copyValue htype hx⟩

/-- The strings of an object have been allocated. -/
def Instance.IsIn (cls : Class Ivar) (obj : Instance Ivar Allocator) (world : World) : Prop :=
  ∀ v, cls.type v = .string → obj.ivar v < world.next

/-- What the clone has in place of the value of a copied ivar. -/
def Moved (cls : Class Ivar) (copyWithAllocator : ℕ → ℕ) (world : World)
    (obj : Instance Ivar Allocator) (info : CopyInfo Ivar Allocator) (v : Ivar) : Prop :=
  cls.type v = .object ∧ info.clone.ivar v = copyWithAllocator (obj.ivar v) ∨
    cls.type v = .string ∧ world.next ≤ info.clone.ivar v ∧ info.clone.ivar v < info.world.next ∧
      info.world.text (info.clone.ivar v) = world.text (obj.ivar v) ∧
      acquisitions info.events (.string info.clone.allocator (info.clone.ivar v)) = 1

/-- What the clone holds of its own. -/
def CopyInfo.repaired (cls : Class Ivar) (info : CopyInfo Ivar Allocator) (v : Ivar) :
    Option (Resource Allocator) :=
  if info.obj.ivar v = 0 then info.clone.held cls v else none

/-- What holds during a walk: an ivar still is as it was in the source, on both sides, or it
has been moved. -/
structure Walked (cls : Class Ivar) (copyWithAllocator : ℕ → ℕ) (world : World)
    (obj : Instance Ivar Allocator) (info : CopyInfo Ivar Allocator) : Prop where
  next : world.next ≤ info.world.next
  text : ∀ s < world.next, info.world.text s = world.text s
  fresh : ∀ s, info.world.next ≤ s →
    acquisitions info.events (.string info.clone.allocator s) = 0
  ivar : ∀ v, info.obj.ivar v = obj.ivar v ∧ info.clone.ivar v = obj.ivar v ∨
    cls.IsCopied v ∧ obj.ivar v ≠ 0 ∧ info.obj.ivar v = 0 ∧
      Moved cls copyWithAllocator world obj info v
  balance : ∀ q, acquisitions info.events q + count cls.owned (obj.held cls) q =
    releases info.events q + count cls.owned (info.obj.held cls) q +
      count cls.owned (info.repaired cls) q

variable {world : World} {obj : Instance Ivar Allocator} {y : ℕ}

theorem Class.owned_of_isCopied (hv : cls.IsCopied v) : v ∈ cls.owned := by
  obtain ⟨p, hp, hcopied, hpv⟩ := hv
  simp only [Property.isCopied, Bool.and_eq_true, Bool.or_eq_true] at hcopied
  have hcopy : p.isCopy = true := hcopied.2.elim (cls.cstring_copy p hp) id
  exact Class.mem_owned.mpr (.inl ⟨p, hp, by rw [Property.owns, hcopy, Bool.true_or], hpv⟩)

theorem Walked.refl (cls : Class Ivar) (copyWithAllocator : ℕ → ℕ) (allocator : Allocator)
    (world : World) (obj : Instance Ivar Allocator) : Walked cls copyWithAllocator world obj
      ⟨obj, { allocator := allocator, ivar := obj.ivar }, world, []⟩ where
  next := le_rfl
  text _ _ := rfl
  fresh _ _ := rfl
  ivar _ := .inl ⟨rfl, rfl⟩
  balance q := by
    have hnone : count cls.owned (CopyInfo.repaired cls
        ⟨obj, { allocator := allocator, ivar := obj.ivar }, world, []⟩) q = 0 := by
      apply count_eq_zero
      intro v _
      unfold CopyInfo.repaired
      split
      · rename_i hzero
        simp [Instance.held, show obj.ivar v = 0 from hzero]
      · simp
    rw [hnone]
    simp

/-- Moving an ivar releases what the source had and acquires what the clone gets. -/
theorem Walked.balance_replaces (hinfo : Walked cls copyWithAllocator world obj info)
    (hmoved : Replaces cls copyWithAllocator v y info info') (hv : cls.IsCopied v)
    (hx : info.obj.ivar v ≠ 0) (q : Resource Allocator) :
    acquisitions info'.events q + count cls.owned (obj.held cls) q =
      releases info'.events q + count cls.owned (info'.obj.held cls) q +
        count cls.owned (info'.repaired cls) q := by
  have howned := Class.owned_of_isCopied hv
  have hobj : info'.obj.held cls = Function.update (info.obj.held cls) v none := by
    rw [hmoved.obj, Instance.held_update, Class.resource_zero]
  have hrepaired : info'.repaired cls =
      Function.update (info.repaired cls) v (cls.resource info.clone.allocator v y) := by
    funext w
    unfold CopyInfo.repaired
    rw [hmoved.obj, hmoved.clone, Instance.held_update]
    by_cases hw : w = v
    · subst hw
      simp
    · simp [hw]
  have hnone : info.repaired cls v = none := if_neg hx
  have hbefore := hinfo.balance q
  have hacquired := hmoved.acquisitions q
  have hreleased := hmoved.releases q
  have hsource := count_update (r := q) (info.obj.held cls) howned none
  have hclone := count_update (r := q) (info.repaired cls) howned
    (cls.resource info.clone.allocator v y)
  rw [hobj, hrepaired]
  simp only [hnone, reduceCtorEq, if_false] at hsource hclone
  omega

/-- A move acquires a string only if it duplicates one, at the next address. -/
theorem acquisitions_string_replaces (hmoved : Replaces cls copyWithAllocator v y info info')
    {s : ℕ} (hs : s ≠ info.world.next ∨ cls.type v = .object) (a : Allocator) :
    acquisitions info'.events (.string a s) = acquisitions info.events (.string a s) := by
  rw [hmoved.acquisitions, if_neg, Nat.add_zero]
  by_cases hy : y = 0
  · simp [hy]
  rcases hmoved.value with ⟨htype, -, -⟩ | ⟨htype, hnext, -⟩
  · rw [Class.resource_of_object _ htype hy]
    simp
  · rw [Class.resource_of_string _ htype hy]
    have hne : s ≠ y := by
      rcases hs with hs | hs
      · rw [hnext]
        exact hs
      · rw [htype] at hs
        cases hs
    simp [Ne.symm hne]

/-- A move leaves what has been moved before. -/
theorem Moved.replaces (hmoved : Replaces cls copyWithAllocator v y info info') {w : Ivar}
    (hw : w ≠ v) (h : Moved cls copyWithAllocator world obj info w) :
    Moved cls copyWithAllocator world obj info' w := by
  have hclone : info'.clone.ivar w = info.clone.ivar w := by
    rw [hmoved.clone]
    exact Function.update_of_ne hw y info.clone.ivar
  have hallocator : info'.clone.allocator = info.clone.allocator := by rw [hmoved.clone]
  rcases h with ⟨htype, hvalue⟩ | ⟨htype, hle, hlt, htext, hacquired⟩
  · exact .inl ⟨htype, hclone.trans hvalue⟩
  · have hne : info.clone.ivar w ≠ info.world.next := by omega
    refine .inr ⟨htype, hclone ▸ hle, ?_, ?_, ?_⟩
    · rw [hclone]
      rcases hmoved.value with ⟨-, -, hworld⟩ | ⟨-, -, hworld⟩
      · rwa [hworld]
      · rw [hworld]
        exact Nat.lt_succ_of_lt hlt
    · rw [hclone, ← htext]
      rcases hmoved.value with ⟨-, -, hworld⟩ | ⟨-, -, hworld⟩
      · rw [hworld]
      · rw [hworld]
        exact Function.update_of_ne hne _ _
    · rw [hclone, hallocator, acquisitions_string_replaces hmoved (.inl hne), hacquired]

/-- Moving one ivar leaves the others as they are. -/
theorem Walked.replaces (hinfo : Walked cls copyWithAllocator world obj info)
    (hin : obj.IsIn cls world) (hmoved : Replaces cls copyWithAllocator v y info info')
    (hv : cls.IsCopied v) (hx : info.obj.ivar v ≠ 0) :
    Walked cls copyWithAllocator world obj info' := by
  have hallocator : info'.clone.allocator = info.clone.allocator := by rw [hmoved.clone]
  have hsame : info.obj.ivar v = obj.ivar v := by
    rcases hinfo.ivar v with ⟨h, -⟩ | ⟨-, -, h, -⟩
    · exact h
    · exact absurd h hx
  have hclone : info'.clone.ivar v = y := by
    rw [hmoved.clone]
    exact Function.update_self v y info.clone.ivar
  have hnext := hinfo.next
  have hfields : (world.next ≤ info'.world.next ∧
      (∀ s < world.next, info'.world.text s = world.text s) ∧
      (∀ s, info'.world.next ≤ s →
        acquisitions info'.events (.string info'.clone.allocator s) = 0)) ∧
      Moved cls copyWithAllocator world obj info' v := by
    rcases hmoved.value with ⟨htype, hy, hworld⟩ | ⟨htype, hy, hworld⟩
    · rw [hworld, hallocator]
      refine ⟨⟨hnext, hinfo.text, ?_⟩, .inl ⟨htype, ?_⟩⟩
      · intro s hs
        rw [acquisitions_string_replaces hmoved (.inr htype), hinfo.fresh s hs]
      · rw [hclone, hy, hsame]
    · have hlt : obj.ivar v < world.next := hin v htype
      have hpos : info.world.next ≠ 0 := by omega
      have hstrdup : info'.world.next = info.world.next + 1 := by rw [hworld]; rfl
      have htext : ∀ s < info.world.next, info'.world.text s = info.world.text s := by
        intro s hs
        rw [hworld]
        exact Function.update_of_ne (Nat.ne_of_lt hs) _ _
      refine ⟨⟨by omega, ?_, ?_⟩, .inr ⟨htype, by omega, by omega, ?_, ?_⟩⟩
      · intro s hs
        rw [htext s (by omega), hinfo.text s hs]
      · intro s hs
        rw [hallocator, acquisitions_string_replaces hmoved (.inl (by omega)),
          hinfo.fresh s (by omega)]
      · rw [hclone, hy, hworld, ← hinfo.text _ hlt, ← hsame]
        exact Function.update_self _ _ _
      · rw [hclone, hallocator, hmoved.acquisitions, hy,
          Class.resource_of_string _ htype hpos, if_pos rfl, hinfo.fresh _ le_rfl]
  obtain ⟨⟨hnext', htext', hfresh'⟩, hmovedv⟩ := hfields
  refine ⟨hnext', htext', hfresh', ?_, hinfo.balance_replaces hmoved hv hx⟩
  intro w
  by_cases hw : w = v
  · subst hw
    refine .inr ⟨hv, hsame ▸ hx, ?_, hmovedv⟩
    rw [hmoved.obj]
    exact Function.update_self w 0 info.obj.ivar
  · have hobj : info'.obj.ivar w = info.obj.ivar w := by
      rw [hmoved.obj]
      exact Function.update_of_ne hw 0 info.obj.ivar
    have hclonew : info'.clone.ivar w = info.clone.ivar w := by
      rw [hmoved.clone]
      exact Function.update_of_ne hw y info.clone.ivar
    rw [hobj, hclonew]
    exact (hinfo.ivar w).imp id fun ⟨hcopied, hne, hzero, h⟩ =>
      ⟨hcopied, hne, hzero, h.replaces hmoved hw⟩

theorem Walked.next_ne_zero (hinfo : Walked cls copyWithAllocator world obj info)
    (hin : obj.IsIn cls world) (htype : cls.type v = .string) : info.world.next ≠ 0 := by
  have hnext := hinfo.next
  have hlt := hin v htype
  omega

/-- A whole walk: whatever is copied has been moved, unless there was nothing. -/
theorem Walked.copyProperties (hin : obj.IsIn cls world) {ps : List (Property Ivar)}
    (hps : ∀ p ∈ ps, p ∈ walkProperties cls.hierarchy)
    (hinfo : Walked cls copyWithAllocator world obj info)
    (h : CopyInfo.copyProperties copyWithAllocator ps info = some info') :
    Walked cls copyWithAllocator world obj info' ∧
      info'.clone.allocator = info.clone.allocator ∧
      (∀ v, info.obj.ivar v = 0 → info'.obj.ivar v = 0) ∧
      ∀ p ∈ ps, p.isCopied = true → ∃ v, p.ivar = some v ∧ info'.obj.ivar v = 0 := by
  induction ps generalizing info with
  | nil =>
    obtain rfl := Option.some.inj h
    exact ⟨hinfo, rfl, fun _ => id, fun _ hp => absurd hp List.not_mem_nil⟩
  | cons p ps ih =>
    obtain ⟨hp, hps⟩ := List.forall_mem_cons.mp hps
    obtain ⟨info₁, hstep, hrest⟩ := Option.bind_eq_some_iff.mp h
    rcases copyProperty_cases (fun _ => hinfo.next_ne_zero hin) hp hstep with
      ⟨rfl, hnothing⟩ | ⟨v, y, hcopied, hv, hx, hmoved⟩
    · obtain ⟨hinfo', hallocator, hzero, hdone⟩ := ih hps hinfo hrest
      refine ⟨hinfo', hallocator, hzero, List.forall_mem_cons.mpr ⟨fun hcopied => ?_, hdone⟩⟩
      obtain ⟨v, hv, hx⟩ := hnothing hcopied
      exact ⟨v, hv, hzero v hx⟩
    · obtain ⟨hinfo', hallocator, hzero, hdone⟩ :=
        ih hps (hinfo.replaces hin hmoved ⟨p, hp, hcopied, hv⟩ hx) hrest
      have hzero₁ : ∀ w, info.obj.ivar w = 0 ∨ w = v → info₁.obj.ivar w = 0 := by
        intro w hw
        rw [hmoved.obj]
        by_cases hwv : w = v
        · subst hwv
          exact Function.update_self w 0 info.obj.ivar
        · exact (Function.update_of_ne hwv 0 info.obj.ivar).trans (hw.resolve_right hwv)
      have hclone : info₁.clone.allocator = info.clone.allocator := by rw [hmoved.clone]
      exact ⟨hinfo', hallocator.trans hclone, fun w hw => hzero w (hzero₁ w (.inl hw)),
        List.forall_mem_cons.mpr ⟨fun _ => ⟨v, hv, hzero v (hzero₁ v (.inr rfl))⟩, hdone⟩⟩

/-- If the source keeps nothing, the clone has what it acquired, and gives that up. -/
theorem Walked.balanced (hinfo : Walked cls copyWithAllocator world obj info)
    (hzero : ∀ v ∈ cls.owned, info.obj.ivar v = 0) (q : Resource Allocator) :
    acquisitions (info.events ++ (info.obj.teardown cls).1 ++ (info.clone.teardown cls).1) q +
        count cls.owned (obj.held cls) q =
      releases (info.events ++ (info.obj.teardown cls).1 ++ (info.clone.teardown cls).1) q := by
  have hnone : count cls.owned (info.obj.held cls) q = 0 := by
    apply count_eq_zero
    intro v hv
    rw [Instance.held, hzero v hv, Class.resource_zero]
    exact (Option.some_ne_none q).symm
  have hrepaired :
      count cls.owned (info.repaired cls) q = count cls.owned (info.clone.held cls) q :=
    count_congr fun v hv => if_pos (hzero v hv)
  have hsource := releases_teardown cls info.obj q
  have hclone := releases_teardown cls info.clone q
  have hbalance := hinfo.balance q
  have hsource' := (givesUp_teardown cls info.obj).acquisitions q
  have hclone' := (givesUp_teardown cls info.clone).acquisitions q
  simp only [acquisitions_append, releases_append]
  omega

end MulleObjC.Copying
