import Mathlib.Data.List.Nodup
import Mathlib.Logic.Function.Basic
import MulleObjC.Library.Blocks
import MulleObjC.Library.Machine

/-!
# Strings in instance variables

`MulleObjCObjectSetDuplicatedUTF8String` keeps a duplicate of a string in an instance variable,
and frees the duplicate that was there before. The string may lie anywhere in the memory, also
in the duplicate that is freed or in that of another instance variable.
-/

namespace MulleObjC.Ivar

open Memory Machine

/-- The memory, what is allocated in it, and the `char *` instance variables of all objects. -/
structure Strings (Slot : Type*) where
  memory : Memory UInt8
  blocks : List Block
  ivar : Slot → ℕ

/-- What is done. -/
inductive StringAct (Slot : Type*)
  /-- `s` has `n` readable cells. If it is duplicated then the duplicate is at `p`. -/
  | setDuplicatedUTF8String (slot : Slot) (s n p : ℕ)
  /-- A write by anybody else. -/
  | write (q : ℕ) (cells : List UInt8)
  deriving DecidableEq

/-- What is reported. -/
inductive StringEvent (Slot : Type*)
  /-- What the instance variable is set to. -/
  | set (slot : Slot) (string : Option (List UInt8))
  | allocated (p : ℕ)
  | freed (p : ℕ)
  deriving DecidableEq

variable {Slot : Type*}

namespace Strings

/-- Nothing that is allocated is in the block. -/
def Clear (st : Strings Slot) (b : Block) : Prop := ∀ a ∈ st.blocks, a.Apart b

instance (st : Strings Slot) (b : Block) : Decidable (st.Clear b) :=
  inferInstanceAs (Decidable (∀ a ∈ st.blocks, _))

/-- What is allocated behind `mulle_allocator_free( allocator, *ivar)`. -/
def free (st : Strings Slot) (slot : Slot) : List Block :=
  if st.ivar slot = 0 then st.blocks else st.blocks.filter (·.start ≠ st.ivar slot)

/-- The report of it. -/
def freed (st : Strings Slot) (slot : Slot) : List (StringEvent Slot) :=
  if st.ivar slot = 0 then [] else [.freed (st.ivar slot)]

variable [DecidableEq Slot]

/-- `MulleObjCObjectSetDuplicatedUTF8String`. `none` is undefined. -/
def setDuplicatedUTF8String (st : Strings Slot) (slot : Slot) (s n p : ℕ) :
    Option (List (StringEvent Slot) × Strings Slot) :=
  if s = st.ivar slot then some ([], st)
  else if s = 0 then
    some (.set slot none :: st.freed slot,
      ⟨st.memory, st.free slot, Function.update st.ivar slot 0⟩)
  else
    -- `mulle_allocator_strdup`
    (strlen 0 st.memory s n).bind fun k =>
      (st.memory.memcpy p s (k + 1)).map fun m =>
        (.set slot (some (st.memory.read s k)) :: .allocated p :: st.freed slot,
          ⟨m, ⟨p, k + 1⟩ :: st.free slot, Function.update st.ivar slot p⟩)

/-- A step. -/
def step (st : Strings Slot) : StringAct Slot → Option (List (StringEvent Slot) × Strings Slot)
  | .setDuplicatedUTF8String slot s n p => st.setDuplicatedUTF8String slot s n p
  | .write q cells => some ([], { st with memory := st.memory.write q cells })

/-- The allocator gives memory that nobody uses, and others write only to memory that is not
allocated for the instance variables. -/
def Legal (st : Strings Slot) : StringAct Slot → Prop
  | .setDuplicatedUTF8String slot s n p =>
    s = st.ivar slot ∨ s = 0 ∨
      ∃ k ∈ strlen 0 st.memory s n, p ≠ 0 ∧ st.Clear ⟨p, k + 1⟩ ∧
        Memory.Apart p (k + 1) s (k + 1)
  | .write q cells => st.Clear ⟨q, cells.length⟩

instance (st : Strings Slot) (a : StringAct Slot) : Decidable (st.Legal a) := by
  cases a with
  | setDuplicatedUTF8String | write =>
    unfold Legal
    infer_instance

/-- All instance variables are NULL. -/
def init (memory : Memory UInt8) : Strings Slot := ⟨memory, [], fun _ => 0⟩

end Strings

variable [DecidableEq Slot] {st st' : Strings Slot} {slot : Slot} {a : StringAct Slot}
  {es fs : List (StringEvent Slot)} {string : List UInt8} {m : Memory UInt8} {s n p k : ℕ}

/-- What an instance variable was set to last. -/
def latest (slot : Slot) (es : List (StringEvent Slot)) : Option (List UInt8) :=
  es.foldl (fun v e => match e with
    | .set slot' string => if slot' = slot then string else v
    | _ => v) none

/-- The instance variable is NULL, or points to an allocated block with the string. -/
def Strings.Holds (st : Strings Slot) (slot : Slot) : Option (List UInt8) → Prop
  | none => st.ivar slot = 0
  | some string => st.ivar slot ≠ 0 ∧ StringAt 0 st.memory (st.ivar slot) string ∧
      (⟨st.ivar slot, string.length + 1⟩ : Block) ∈ st.blocks

/-- Every instance variable has the string that it was set to, in a block that is its own. Each
duplicate is freed once, or is in an instance variable. -/
structure Kept (es : List (StringEvent Slot)) (st : Strings Slot) : Prop where
  holds : ∀ slot, st.Holds slot (latest slot es)
  own : ∀ b ∈ st.blocks, b.start ≠ 0 ∧ 0 < b.length ∧ ∃! slot, st.ivar slot = b.start
  apart : st.blocks.Pairwise Block.Apart
  balance : ∀ p, es.count (.allocated p) = es.count (.freed p) +
    st.blocks.countP (·.start = p)

/-- Blocks that are allocated have different addresses. -/
theorem nodup_start {blocks : List Block} (hapart : blocks.Pairwise Block.Apart)
    (hlength : ∀ b ∈ blocks, 0 < b.length) : (blocks.map Block.start).Nodup := by
  refine List.pairwise_map.mpr (hapart.imp_of_mem fun {a b} ha hb hab hstart => ?_)
  have ha := hlength a ha
  have hb := hlength b hb
  rcases hab with h | h <;> omega

/-- A block that is freed was allocated once. -/
theorem countP_filter_start {blocks : List Block} (hnodup : (blocks.map Block.start).Nodup)
    {b : Block} (hb : b ∈ blocks) (p : ℕ) :
    blocks.countP (·.start = p) =
      (blocks.filter (·.start ≠ b.start)).countP (·.start = p) + if b.start = p then 1 else 0 := by
  rw [List.countP_eq_countP_filter_add _ _ fun a => decide (a.start ≠ b.start)]
  congr 1
  rw [List.countP_filter]
  split
  · next heq =>
    have hone := List.count_eq_one_of_mem hnodup (List.mem_map_of_mem hb)
    rw [List.count, List.countP_map] at hone
    rw [← hone]
    exact List.countP_congr fun a _ => by simp [heq]
  · next hne =>
    refine List.countP_eq_zero.mpr fun a _ h => ?_
    simp only [Bool.and_eq_true, decide_eq_true_eq, Bool.not_eq_true', decide_eq_false_iff_not,
      not_not] at h
    exact hne (h.2.symm.trans h.1)

/-- What was set last is what counts. -/
theorem latest_append_set {slot' : Slot} {v : Option (List UInt8)}
    (hfs : ∀ slot v, .set slot v ∉ fs) :
    latest slot' (es ++ .set slot v :: fs) = if slot = slot' then v else latest slot' es := by
  have hrest (w : Option (List UInt8)) : fs.foldl (fun v e => match e with
      | .set slot'' string => if slot'' = slot' then string else v
      | _ => v) w = w := by
    induction fs with
    | nil => rfl
    | cons e fs ih =>
      rw [List.foldl_cons]
      cases e with
      | set slot'' v => exact absurd List.mem_cons_self (hfs slot'' v)
      | allocated | freed => exact ih fun slot v hmem => hfs slot v (List.mem_cons_of_mem _ hmem)
  rw [latest, List.foldl_append, List.foldl_cons, hrest]
  rfl

omit [DecidableEq Slot] in
theorem set_notMem_freed (slot' : Slot) (v : Option (List UInt8)) : .set slot' v ∉ st.freed slot := by
  unfold Strings.freed
  split <;> simp

omit [DecidableEq Slot] in
/-- An instance variable keeps its string while its block is neither freed nor written. -/
theorem Strings.Holds.congr {v : Option (List UInt8)} (h : st.Holds slot v)
    (hivar : st'.ivar slot = st.ivar slot)
    (hblock : ∀ b ∈ st.blocks, b.start = st.ivar slot →
      b ∈ st'.blocks ∧ st'.memory.contents b = st.memory.contents b) : st'.Holds slot v := by
  cases v with
  | none => exact hivar.trans h
  | some string =>
    obtain ⟨hne, hstring, hmem⟩ := h
    obtain ⟨hmem', hcontents⟩ := hblock _ hmem rfl
    refine ⟨hivar ▸ hne, ?_, hivar ▸ hmem'⟩
    rw [hivar]
    exact hstring.congr hcontents

namespace Kept

theorem nodup (h : Kept es st) : (st.blocks.map Block.start).Nodup :=
  nodup_start h.apart fun b hb => (h.own b hb).2.1

/-- The block of an instance variable. -/
theorem block (h : Kept es st) (hne : st.ivar slot ≠ 0) :
    ∃ n, (⟨st.ivar slot, n + 1⟩ : Block) ∈ st.blocks := by
  have hholds := h.holds slot
  cases hv : latest slot es with
  | none =>
    rw [hv] at hholds
    exact absurd hholds hne
  | some string =>
    rw [hv] at hholds
    exact ⟨string.length, hholds.2.2⟩

/-- No two instance variables share a duplicate. -/
theorem eq_of_ivar (h : Kept es st) {slot' : Slot} (hne : st.ivar slot ≠ 0)
    (heq : st.ivar slot' = st.ivar slot) : slot' = slot := by
  obtain ⟨n, hmem⟩ := h.block hne
  obtain ⟨-, -, hunique⟩ := h.own _ hmem
  exact hunique.unique heq rfl

/-- A block that is clear is nobody's duplicate. -/
theorem ivar_ne (h : Kept es st) (hp : p ≠ 0) (hclear : st.Clear ⟨p, k + 1⟩) (slot : Slot) :
    st.ivar slot ≠ p := by
  rintro rfl
  obtain ⟨n, hmem⟩ := h.block hp
  rcases hclear _ hmem with hle | hle
  · dsimp only at hle
    omega
  · dsimp only at hle
    omega

/-- The order of the reports does not matter. -/
theorem of_events (h : Kept es st) (hlatest : ∀ slot, latest slot fs = latest slot es)
    (hallocated : ∀ p, fs.count (.allocated p) = es.count (.allocated p))
    (hfreed : ∀ p, fs.count (.freed p) = es.count (.freed p)) : Kept fs st where
  holds slot := hlatest slot ▸ h.holds slot
  own := h.own
  apart := h.apart
  balance p := by rw [hallocated, hfreed, h.balance]

/-- The duplicate is freed. -/
theorem free (h : Kept es st) (slot : Slot) : Kept (es ++ .set slot none :: st.freed slot)
    ⟨st.memory, st.free slot, Function.update st.ivar slot 0⟩ := by
  by_cases hnull : st.ivar slot = 0
  · have hfree : st.free slot = st.blocks := if_pos hnull
    have hfreed : st.freed slot = [] := if_pos hnull
    have hivar : Function.update st.ivar slot 0 = st.ivar := by
      rw [← hnull, Function.update_eq_self]
    rw [hfree, hfreed, hivar]
    refine ⟨fun slot' => ?_, h.own, h.apart, fun p => ?_⟩
    · rw [latest_append_set (by simp)]
      split
      · next heq => exact heq ▸ hnull
      · exact h.holds slot'
    · rw [List.count_append, List.count_append, h.balance]
      simp
  · have hfree : st.free slot = st.blocks.filter (·.start ≠ st.ivar slot) := if_neg hnull
    have hfreed : st.freed slot = [.freed (st.ivar slot)] := if_neg hnull
    obtain ⟨n, hblock⟩ := h.block hnull
    refine ⟨fun slot' => ?_, fun b hb => ?_, ?_, fun p => ?_⟩
    · rw [latest_append_set (set_notMem_freed · ·)]
      split
      · next heq =>
        rw [← heq]
        exact Function.update_self slot 0 st.ivar
      · next hne =>
        refine (h.holds slot').congr (Function.update_of_ne (Ne.symm hne) 0 st.ivar)
          fun b hb hstart => ⟨?_, rfl⟩
        rw [hfree, List.mem_filter]
        refine ⟨hb, decide_eq_true fun heq => hne ?_⟩
        exact (h.eq_of_ivar hnull (hstart.symm.trans heq)).symm
    · rw [hfree, List.mem_filter, decide_eq_true_eq] at hb
      obtain ⟨hstart, hlength, slot', hslot', hunique⟩ := h.own b hb.1
      refine ⟨hstart, hlength, slot', ?_, fun slot'' hslot'' => ?_⟩
      · have hne : slot' ≠ slot := by
          rintro rfl
          exact hb.2 hslot'.symm
        simpa [hne] using hslot'
      · by_cases hne : slot'' = slot
        · simp only [hne, Function.update_self] at hslot''
          exact absurd hslot''.symm hstart
        · simp only [Function.update_of_ne hne] at hslot''
          exact hunique slot'' hslot''
    · rw [hfree]
      exact h.apart.filter _
    · have hcount := countP_filter_start h.nodup hblock p
      have hbalance := h.balance p
      have hallocated : ([.set slot none, .freed (st.ivar slot)] : List (StringEvent Slot)).count
          (.allocated p) = 0 := List.count_eq_zero.mpr (by simp)
      have hfreed' : ([.set slot none, .freed (st.ivar slot)] : List (StringEvent Slot)).count
          (.freed p) = if st.ivar slot = p then 1 else 0 := by
        simp [List.count_cons]
      rw [List.count_append, List.count_append, hfree, hfreed, hallocated, hfreed']
      dsimp only at hcount ⊢
      omega

/-- A duplicate of a string is allocated. -/
theorem alloc (h : Kept es st) (hnull : st.ivar slot = 0) (hp : p ≠ 0)
    (hclear : st.Clear ⟨p, string.length + 1⟩) (hstring : 0 ∉ string) :
    Kept (es ++ .set slot (some string) :: [.allocated p])
      ⟨st.memory.write p (string ++ [0]), ⟨p, string.length + 1⟩ :: st.blocks,
        Function.update st.ivar slot p⟩ := by
  have hlength : (string ++ [0]).length = string.length + 1 := by simp
  have hcontents (b : Block) (hb : b ∈ st.blocks) :
      (st.memory.write p (string ++ [0])).contents b = st.memory.contents b :=
    contents_write_of_apart (a := ⟨p, string.length + 1⟩) (hclear b hb).symm hlength
  refine ⟨fun slot' => ?_, fun b hb => ?_, ?_, fun q => ?_⟩
  · rw [latest_append_set (by simp)]
    split
    · next heq =>
      rw [← heq]
      have hivar : Function.update st.ivar slot p slot = p := Function.update_self slot p st.ivar
      refine ⟨?_, ?_, ?_⟩
      · simpa [hivar] using hp
      · simp only [hivar]
        exact ⟨hstring, read_write_of_length hlength⟩
      · simp only [hivar]
        exact List.mem_cons_self
    · next hne =>
      exact (h.holds slot').congr (Function.update_of_ne (Ne.symm hne) p st.ivar)
        fun b hb _ => ⟨List.mem_cons_of_mem _ hb, hcontents b hb⟩
  · rcases List.mem_cons.mp hb with rfl | hb
    · refine ⟨hp, Nat.succ_pos _, slot, by simp, fun slot' hslot' => ?_⟩
      by_contra hne
      simp only [Function.update_of_ne hne] at hslot'
      exact h.ivar_ne hp hclear slot' hslot'
    · obtain ⟨hstart, hpos, slot', hslot', hunique⟩ := h.own b hb
      refine ⟨hstart, hpos, slot', ?_, fun slot'' hslot'' => ?_⟩
      · have hne : slot' ≠ slot := by
          rintro rfl
          exact hstart (hslot'.symm.trans hnull)
        simpa [hne] using hslot'
      · by_cases hne : slot'' = slot
        · simp only [hne, Function.update_self] at hslot''
          rcases hclear b hb with hle | hle
          · dsimp only at hle
            omega
          · dsimp only at hle
            omega
        · simp only [Function.update_of_ne hne] at hslot''
          exact hunique slot'' hslot''
  · exact List.pairwise_cons.mpr ⟨fun b hb => (hclear b hb).symm, h.apart⟩
  · have hbalance := h.balance q
    have hallocated : ([.set slot (some string), .allocated p] : List (StringEvent Slot)).count
        (.allocated q) = if p = q then 1 else 0 := by
      simp [List.count_cons]
    have hfreed : ([.set slot (some string), .allocated p] : List (StringEvent Slot)).count
        (.freed q) = 0 := List.count_eq_zero.mpr (by simp)
    rw [List.count_append, List.count_append, List.countP_cons, hallocated, hfreed]
    simp only [decide_eq_true_eq]
    omega

theorem write (h : Kept es st) {q : ℕ} {cells : List UInt8} (hclear : st.Clear ⟨q, cells.length⟩) :
    Kept es { st with memory := st.memory.write q cells } where
  holds slot := (h.holds slot).congr rfl fun b hb _ =>
    ⟨hb, contents_write_of_apart (a := ⟨q, cells.length⟩) (hclear b hb).symm rfl⟩
  own := h.own
  apart := h.apart
  balance := h.balance

theorem step (h : Kept es st) (hlegal : st.Legal a) (hstep : st.step a = some (fs, st')) :
    Kept (es ++ fs) st' := by
  cases a with
  | write q cells =>
    obtain ⟨rfl, rfl⟩ := Prod.mk.inj (Option.some.inj hstep)
    rw [List.append_nil]
    exact h.write hlegal
  | setDuplicatedUTF8String slot s n p =>
    simp only [Strings.step, Strings.setDuplicatedUTF8String] at hstep
    split at hstep
    · obtain ⟨rfl, rfl⟩ := Prod.mk.inj (Option.some.inj hstep)
      rwa [List.append_nil]
    · next hne =>
      split at hstep
      · obtain ⟨rfl, rfl⟩ := Prod.mk.inj (Option.some.inj hstep)
        exact h.free slot
      · next hs =>
        obtain ⟨k, hk, hstep⟩ := Option.bind_eq_some_iff.mp hstep
        obtain ⟨m, hm, hr⟩ := Option.map_eq_some_iff.mp hstep
        obtain ⟨rfl, rfl⟩ := Prod.mk.inj hr
        obtain ⟨k', hk', hp, hclear, happart⟩ := (hlegal.resolve_left hne).resolve_left hs
        obtain rfl : k = k' := Option.some.inj (hk.symm.trans hk')
        obtain ⟨hstring, -⟩ := stringAt_of_strlen hk
        have hlength : (st.memory.read s k).length = k := length_read
        have hread : st.memory.read s (k + 1) = st.memory.read s k ++ [0] := by
          rw [← hlength, hstring.read_eq, hlength]
        have hmemory : m = st.memory.write p (st.memory.read s k ++ [0]) := by
          rw [memcpy, if_pos happart, Option.some.injEq, hread] at hm
          exact hm.symm
        have hfreed := h.free slot
        have hclear' : (⟨st.memory, st.free slot, Function.update st.ivar slot 0⟩ :
            Strings Slot).Clear ⟨p, (st.memory.read s k).length + 1⟩ := by
          rw [hlength]
          intro b hb
          refine hclear b ?_
          change b ∈ st.free slot at hb
          unfold Strings.free at hb
          split at hb
          · exact hb
          · exact List.mem_of_mem_filter hb
        have halloc := hfreed.alloc (Function.update_self slot 0 st.ivar) hp hclear' hstring.notMem
        rw [Function.update_idem, hlength] at halloc
        rw [hmemory]
        refine halloc.of_events (fun slot' => ?_) (fun q => ?_) fun q => ?_
        · rw [latest_append_set (by simp [set_notMem_freed]), latest_append_set (by simp),
            latest_append_set (set_notMem_freed · ·)]
          by_cases heq : slot = slot' <;> simp [heq]
        · simp [List.count_cons]
        · simp

end Kept

/-- In every run of the setter, on any instance variables and with any strings in the memory, each
instance variable has the string that was last passed to its setter as it was then, in memory of
its own that is freed once. -/
theorem kept_of_run (hrun : RunWhile Strings.step Strings.Legal (.init m) es st) : Kept es st := by
  refine hrun.invariant_trace Kept (fun hlegal h hstep => h.step hlegal hstep) ?_
  exact ⟨fun _ => rfl, by simp [Strings.init], .nil, by simp [Strings.init]⟩

/-- The end of a duplicate is duplicated in its place. -/
theorem kept_of_run_suffix : ∃ (es : List (StringEvent Unit)) (st : Strings Unit),
    (latest () es = some [98] ∧ es.count (.freed 200) = 1) ∧ Kept es st := by
  have h : (execWhile Strings.step Strings.Legal
      (.init fun i => if i = 100 then 97 else if i = 101 then 98 else 0)
      [.setDuplicatedUTF8String () 100 8 200, .setDuplicatedUTF8String () 201 2 300]).map
        (fun r => (latest () r.1, r.1.count (.freed 200))) = some (some [98], 1) := by
    decide +kernel
  obtain ⟨⟨es, st⟩, hexec, hr⟩ := Option.map_eq_some_iff.mp h
  obtain ⟨hlatest, hfreed⟩ := Prod.mk.inj hr
  exact ⟨es, st, ⟨hlatest, hfreed⟩, kept_of_run (runWhile_of_execWhile _ hexec)⟩

end MulleObjC.Ivar
