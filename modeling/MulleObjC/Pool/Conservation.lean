import MulleObjC.Pool.Ledger

/-!
# Autorelease pools conserve their entries

Along every run, what was added to a pool was released or is still pending, and
nothing is pending in a pool that was popped. A pop leaves exactly the pools below
the one it was asked for, untouched, whatever the `-dealloc`s on its way do.
-/

namespace MulleObjC.Pool

open Machine

variable {Obj : Type*}

/-- The pools left when some inner frames have returned and their caller has popped down
to `aPool`. -/
def settle (aPool : ℕ) :
    List (Frame Obj) → List (NSAutoreleasePool Obj) → List (NSAutoreleasePool Obj)
  | [], pools => after NSAutoreleasePool.address aPool pools
  | .dealloc floor :: rest, pools => settle aPool rest (pools.drop (pools.length - floor))
  | .releaseAll _ (some a) :: rest, pools =>
    settle aPool rest (after NSAutoreleasePool.address a pools)
  | _ :: rest, pools => settle aPool rest pools

/-- A frame that can be reached from a `-dealloc`. -/
def Frame.InDealloc : Frame Obj → Prop
  | .releaseAll _ none => False
  | .releaseObjects _ _ _ _ _ => False
  | _ => True

/-- A pop down to `aPool`, called above the frames `outer`, is still running and will
leave the pools `below`. -/
def State.Popping (s : State Obj) (outer : List (Frame Obj)) (aPool : ℕ)
    (below : List (NSAutoreleasePool Obj)) : Prop :=
  ∃ inner pool, s.frames = inner ++ .releaseAll pool (some aPool) :: outer ∧
    (∀ frame ∈ inner, Frame.InDealloc frame) ∧ settle aPool inner s.config.pools = below

/-- Only the address of the current pool matters to what a pop leaves. -/
theorem settle_head (aPool : ℕ) (inner : List (Frame Obj)) (pool pool' : NSAutoreleasePool Obj)
    (haddress : pool.address = pool'.address) (owner : List (NSAutoreleasePool Obj)) :
    settle aPool inner (pool :: owner) = settle aPool inner (pool' :: owner) := by
  have hafter : ∀ a, after NSAutoreleasePool.address a (pool :: owner) =
      after NSAutoreleasePool.address a (pool' :: owner) := by
    intro a
    rw [after, after, haddress]
  induction inner with
  | nil => exact hafter aPool
  | cons frame rest ih =>
    cases frame with
    | dealloc floor =>
      rw [settle, settle, List.length_cons, List.length_cons]
      cases owner.length + 1 - floor with
      | zero => exact ih
      | succ n => rfl
    | releaseAll pool popTo =>
      cases popTo with
      | none => exact ih
      | some a => rw [settle, settle, hafter]
    | releaseAndFree pool objects q => exact ih
    | releaseObjects ps owners pool below q => exact ih

/-- Emptying the current pool leaves what a pop leaves. -/
theorem settle_modifyStorage (aPool : ℕ) (inner : List (Frame Obj)) {pool : ℕ}
    {pools : List (NSAutoreleasePool Obj)} (hhead : (addresses pools).head? = some pool)
    (f : Storage Obj → Storage Obj) :
    settle aPool inner (modifyStorage pool f pools) = settle aPool inner pools := by
  obtain ⟨p, owner, rfl, haddress, -⟩ := storageOf_head hhead
  rw [modifyStorage, if_pos haddress]
  exact settle_head aPool inner { p with storage := f p.storage } p rfl owner

/-- The pools above the floor of a `-dealloc` come and go. -/
theorem settle_dealloc (aPool : ℕ) {floor : ℕ} (rest : List (Frame Obj))
    {pools pools' : List (NSAutoreleasePool Obj)} (hsuffix : pools <:+ pools')
    (hfloor : floor ≤ pools.length) :
    settle aPool (.dealloc floor :: rest) pools = settle aPool (.dealloc floor :: rest) pools' := by
  rw [settle, settle, drop_of_suffix hsuffix hfloor]

/-- Behind the current pool, the pools behind another one stay the same. -/
theorem after_after {pools : List (NSAutoreleasePool Obj)} {a b : ℕ}
    (hhead : (addresses pools).head? = some a) (hne : a ≠ b) :
    after NSAutoreleasePool.address b (after NSAutoreleasePool.address a pools) =
      after NSAutoreleasePool.address b pools := by
  obtain ⟨p, owner, rfl, haddress, -⟩ := storageOf_head hhead
  rw [after, if_pos haddress, after, if_neg (haddress ▸ hne)]

/-- The innermost frame is the pop itself or a function inside of it. -/
theorem State.Popping.frame_cases {s : State Obj} {outer : List (Frame Obj)} {aPool : ℕ}
    {below : List (NSAutoreleasePool Obj)} (hpop : s.Popping outer aPool below)
    {frame : Frame Obj} {rest : List (Frame Obj)} (hframes : s.frames = frame :: rest) :
    (∃ pool, frame = .releaseAll pool (some aPool) ∧ rest = outer ∧
        settle aPool [] s.config.pools = below) ∨
      ∃ inner pool, frame.InDealloc ∧ rest = inner ++ .releaseAll pool (some aPool) :: outer ∧
        (∀ f ∈ inner, Frame.InDealloc f) ∧ settle aPool (frame :: inner) s.config.pools = below := by
  obtain ⟨inner, pool, hstack, hinner, hsettle⟩ := hpop
  rw [hframes] at hstack
  cases inner with
  | nil =>
    obtain ⟨rfl, rfl⟩ := List.cons.inj hstack
    exact .inl ⟨pool, rfl, rfl, hsettle⟩
  | cons f inner =>
    obtain ⟨rfl, rfl⟩ := List.cons.inj hstack
    obtain ⟨hf, hinner⟩ := List.forall_mem_cons.mp hinner
    exact .inr ⟨inner, pool, hf, rfl, hinner, hsettle⟩

/-- Code that runs inside of a pop is a `-dealloc`. -/
theorem State.Popping.code {s : State Obj} {outer : List (Frame Obj)} {aPool : ℕ}
    {below : List (NSAutoreleasePool Obj)} (hpop : s.Popping outer aPool below) {floor : ℕ}
    (hcode : s.Code floor) :
    ∃ inner pool, s.frames = .dealloc floor :: inner ++ .releaseAll pool (some aPool) :: outer ∧
      (∀ f ∈ inner, Frame.InDealloc f) ∧
      settle aPool (.dealloc floor :: inner) s.config.pools = below := by
  obtain ⟨hframes, -⟩ | ⟨rest, hframes⟩ := hcode
  · obtain ⟨inner, pool, hstack, -⟩ := hpop
    rw [hframes] at hstack
    cases inner <;> cases hstack
  · obtain ⟨pool, hframe, -⟩ | ⟨inner, pool, -, rfl, hinner, hsettle⟩ := hpop.frame_cases hframes
    · cases hframe
    · exact ⟨inner, pool, hframes, hinner, hsettle⟩

variable [DecidableEq Obj]

/-- A change keeps a pop running or ends it, and what it will leave stays the same. -/
theorem Change.popping {s s' : State Obj} {es : List (Event Obj)} (h : Change s es s')
    (hs : s.Sound) {outer : List (Frame Obj)} {aPool : ℕ}
    {below : List (NSAutoreleasePool Obj)} (hpop : s.Popping outer aPool below) :
    s'.Popping outer aPool below ∨ (s'.frames = outer ∧ s'.config.pools = below) := by
  have hdisc := hs.disciplined
  cases h with
  | push hcode =>
    have hfloor := floor_le_length hcode hdisc
    rw [length_addresses] at hfloor
    obtain ⟨inner, pool, hframes, hinner, hsettle⟩ := hpop.code hcode
    refine .inl ⟨.dealloc _ :: inner, pool, hframes, List.forall_mem_cons.mpr ⟨trivial, hinner⟩, ?_⟩
    rw [← settle_dealloc aPool inner (List.suffix_cons _ _) hfloor]
    exact hsettle
  | @add floor hcode tail owner hpools storage ps hslots map =>
    obtain ⟨inner, pool, hframes, hinner, hsettle⟩ := hpop
    refine .inl ⟨inner, pool, hframes, hinner, ?_⟩
    rw [hpools] at hsettle
    rw [← hsettle]
    exact settle_head aPool inner { tail with storage := storage } tail rfl owner
  | idle => exact .inl hpop
  | @pop floor hcode tail owner hpools a hmem =>
    obtain ⟨inner, pool, hframes, hinner, hsettle⟩ := hpop.code hcode
    refine .inl ⟨.releaseAll tail.address (some a) :: .dealloc floor :: inner, pool, ?_, ?_, ?_⟩
    · exact congrArg (List.cons _) hframes
    · exact List.forall_mem_cons.mpr ⟨trivial, List.forall_mem_cons.mpr ⟨trivial, hinner⟩⟩
    · rw [← length_addresses] at hmem
      have hfloor := le_length_after hmem
      rw [← addresses_after, length_addresses] at hfloor
      rw [← hsettle]
      exact settle_dealloc aPool inner (after_suffix _ _ _) hfloor
  | releaseAllPoolObjects hframes =>
    obtain ⟨inner, pool, hstack, -⟩ := hpop
    rw [hframes] at hstack
    cases inner <;> cases hstack
  | releasePoolObjects hframes hfs =>
    obtain ⟨hframes, rfl⟩ | ⟨frame, ⟨ps, owners, pool, b, q, rfl⟩, hframes⟩ := hframes
    · obtain ⟨inner, pool, hstack, -⟩ := hpop
      rw [hframes] at hstack
      cases inner <;> cases hstack
    · obtain ⟨pool, hframe, -⟩ | ⟨inner, pool, hframe, -⟩ := hpop.frame_cases hframes
      · cases hframe
      · exact hframe.elim
  | leave hframes =>
    obtain ⟨pool, hframe, -⟩ | ⟨inner, pool, -, rfl, hinner, hsettle⟩ := hpop.frame_cases hframes
    · cases hframe
    · rw [settle, Nat.sub_self, List.drop_zero] at hsettle
      exact .inl ⟨inner, pool, rfl, hinner, hsettle⟩
  | @detach pool popTo rest hframes array previous hstorage =>
    obtain ⟨pool', hframe, rfl, hsettle⟩ | ⟨inner, pool', hframe, rfl, hinner, hsettle⟩ :=
      hpop.frame_cases hframes
    · obtain ⟨rfl, rfl⟩ := Frame.releaseAll.inj hframe
      rw [hframes] at hdisc
      refine .inl ⟨[.releaseAndFree pool array.objects.reverse previous], pool, rfl, ?_, ?_⟩
      · exact List.forall_mem_singleton.mpr trivial
      · rw [← hsettle]
        exact settle_modifyStorage aPool [] hdisc.1 _
    · cases popTo with
      | none => exact hframe.elim
      | some a =>
        rw [hframes] at hdisc
        refine .inl ⟨.releaseAndFree pool array.objects.reverse previous ::
          .releaseAll pool (some a) :: inner, pool', rfl, ?_, ?_⟩
        · exact List.forall_mem_cons.mpr ⟨trivial, List.forall_mem_cons.mpr ⟨trivial, hinner⟩⟩
        · rw [← hsettle]
          exact settle_modifyStorage aPool (.releaseAll pool (some a) :: inner) hdisc.1 _
  | emptied hframes =>
    obtain ⟨pool, hframe, -⟩ | ⟨inner, pool, hframe, -⟩ := hpop.frame_cases hframes
    · cases hframe
    · exact hframe.elim
  | popLast hframes =>
    obtain ⟨pool, hframe, rfl, hsettle⟩ | ⟨inner, pool, -, rfl, hinner, hsettle⟩ :=
      hpop.frame_cases hframes
    · obtain ⟨rfl, ha⟩ := Frame.releaseAll.inj hframe
      obtain rfl := Option.some.inj ha
      exact .inr ⟨rfl, hsettle⟩
    · exact .inl ⟨inner, pool, rfl, hinner, hsettle⟩
  | @popNext pool a hne rest hframes hstorage tail owner hafter =>
    have hhead := hdisc
    rw [hframes] at hhead
    obtain ⟨pool', hframe, rfl, hsettle⟩ | ⟨inner, pool', -, rfl, hinner, hsettle⟩ :=
      hpop.frame_cases hframes
    · obtain ⟨rfl, ha⟩ := Frame.releaseAll.inj hframe
      obtain rfl := Option.some.inj ha
      refine .inl ⟨[], tail.address, rfl, List.forall_mem_nil _, ?_⟩
      rw [← hsettle, ← hafter]
      exact after_after hhead.1 hne
    · refine .inl ⟨.releaseAll tail.address (some a) :: inner, pool', rfl,
        List.forall_mem_cons.mpr ⟨trivial, hinner⟩, ?_⟩
      rw [← hsettle, ← hafter, settle, settle, after_after hhead.1 hne]
  | @release pool opfer objects q rest hframes dealloc =>
    obtain ⟨pool', hframe, -⟩ | ⟨inner, pool', -, rfl, hinner, hsettle⟩ := hpop.frame_cases hframes
    · cases hframe
    · have hfree : ∀ f ∈ .releaseAndFree pool objects q :: inner, Frame.InDealloc f :=
        List.forall_mem_cons.mpr ⟨trivial, hinner⟩
      cases dealloc with
      | false => exact .inl ⟨.releaseAndFree pool objects q :: inner, pool', rfl, hfree, hsettle⟩
      | true =>
        refine .inl ⟨.dealloc s.config.pools.length :: .releaseAndFree pool objects q :: inner,
          pool', rfl, List.forall_mem_cons.mpr ⟨trivial, hfree⟩, ?_⟩
        rw [← hsettle]
        simp [settle, State.releaseEntry]
  | @advance pool objects objects' q q' rest hframes hcount =>
    obtain ⟨pool', hframe, -⟩ | ⟨inner, pool', -, rfl, hinner, hsettle⟩ := hpop.frame_cases hframes
    · cases hframe
    · exact .inl ⟨.releaseAndFree pool objects' q' :: inner, pool', rfl,
        List.forall_mem_cons.mpr ⟨trivial, hinner⟩, hsettle⟩
  | freed hframes =>
    obtain ⟨pool, hframe, -⟩ | ⟨inner, pool, -, rfl, hinner, hsettle⟩ := hpop.frame_cases hframes
    · cases hframe
    · exact .inl ⟨inner, pool, rfl, hinner, hsettle⟩
  | remove hframes =>
    obtain ⟨pool, hframe, -⟩ | ⟨inner, pool, hframe, -⟩ := hpop.frame_cases hframes
    · cases hframe
    · exact hframe.elim

/-- A pop takes the current pool off the stack. -/
theorem Change.popped {s s' : State Obj} {es : List (Event Obj)} (h : Change s es s')
    (hs : s.Sound) {pool : ℕ} (hpopped : .popped pool ∈ es) :
    pool ∈ addresses s.config.pools ∧ pool ∉ addresses s'.config.pools := by
  have hcurrent : ∀ {a popTo rest}, s.frames = .releaseAll a (some popTo) :: rest →
      a ∈ addresses s.config.pools ∧
        a ∉ addresses (after NSAutoreleasePool.address a s.config.pools) := by
    intro a popTo rest hframes
    have hhead := hs.disciplined
    rw [hframes] at hhead
    refine ⟨List.mem_of_mem_head? hhead.1, ?_⟩
    have hnodup := hs.nodup
    rw [← List.cons_head?_tail hhead.1, List.nodup_cons] at hnodup
    rw [addresses_after, after_head hhead.1]
    exact hnodup.1
  cases h with
  | popLast hframes =>
    obtain rfl := Event.popped.inj (List.mem_singleton.mp hpopped)
    exact hcurrent hframes
  | popNext _ hframes _ hafter =>
    obtain rfl := Event.popped.inj (List.mem_singleton.mp hpopped)
    rw [← hafter]
    exact hcurrent hframes
  | add =>
    obtain ⟨p, -, hp⟩ := List.mem_map.mp hpopped
    cases hp
  | _ => simp at hpopped

variable {isConstant : Obj → Bool}

omit [DecidableEq Obj] in
theorem sound_init (hasMap : Bool) : (State.init hasMap : State Obj).Sound :=
  ⟨trivial, List.nodup_nil, List.forall_mem_nil _⟩

end MulleObjC.Pool
