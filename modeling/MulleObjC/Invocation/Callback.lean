import MulleObjC.Invocation.Walk

/-!
# Callbacks of the type parser

The parser calls back for every constituent of a type, brackets included. The members of an
array or a union are skipped at first, by counting the open brackets. At the end of the
outermost array its retainable members are parsed again, once for each element. This is the
walk over the type.
-/

namespace MulleObjC.Invocation

/-- `struct perform_context`, with the members that were operated on. -/
structure PerformContext where
  performed : List Member
  offset : ℕ
  skip : ℕ
  deriving DecidableEq, Repr

namespace PerformContext

/-- The callback for a type without members, and for the end of a union. -/
def leaf (c : PerformContext) (size alignment : ℕ) (kind : Option Owned) : PerformContext :=
  if c.skip = 0 then
    ⟨c.performed ++ (kind.map fun k => ⟨k, alignUp c.offset alignment⟩).toList,
      alignUp c.offset alignment + size, 0⟩
  else c

/-- The callback for a bracket after which the members are skipped. -/
def opened (c : PerformContext) : PerformContext := { c with skip := c.skip + 1 }

/-- The callback for the bracket at the end of them. -/
def closed (c : PerformContext) : PerformContext := { c with skip := c.skip - 1 }

/-- The inferior context for the elements of an array. -/
def inferior (c : PerformContext) : PerformContext := { c with skip := 0 }

/-- The context after a walk. -/
def after (c : PerformContext) (w : Walk) : Except (List Member) PerformContext :=
  match w.offset with
  | some o => .ok ⟨c.performed ++ w.members, o, 0⟩
  | none => .error (c.performed ++ w.members)

/-- Two walks, one after the other. -/
theorem after_andThen (c : PerformContext) (w : Walk) (f : ℕ → Walk) :
    (c.after w).bind (fun c' => c'.after (f c'.offset)) = c.after (w.andThen f) := by
  unfold after Walk.andThen
  cases hw : w.offset with
  | none => simp [Except.bind, hw]
  | some o =>
    cases hf : (f o).offset with
    | none => simp [Except.bind, hf]
    | some o' => simp [Except.bind, hf]

theorem leaf_eq_after {c : PerformContext} (hskip : c.skip = 0) (size alignment : ℕ)
    (kind : Option Owned) :
    .ok (c.leaf size alignment kind) = c.after (Walk.scalar size alignment kind c.offset) := by
  rw [leaf, if_pos hskip]
  rfl

end PerformContext

/-- Parse the same type again and again. -/
def parseRepeated (parse : PerformContext → Except (List Member) PerformContext) :
    ℕ → PerformContext → Except (List Member) PerformContext
  | 0, c => .ok c
  | n + 1, c => do parseRepeated parse n (← parse c)

namespace Ty

mutual

/-- `_mulle_objc_type_parse` with `perform_context_callback`. A union with a retainable type
throws, after some members were operated on. -/
def parse : Ty → PerformContext → Except (List Member) PerformContext
  | .scalar s, c => .ok (c.leaf s.size (2 ^ s.alignmentLog) none)
  | .cls, c | .assignId, c => .ok (c.leaf 8 8 none)
  | .retainId, c => .ok (c.leaf 8 8 (some .retainId))
  | .copyId, c => .ok (c.leaf 8 8 (some .copyId))
  | .charPtr, c => .ok (c.leaf 8 8 (some .charPtr))
  | .array count member, c => do
    let c := (← member.parse c.opened).closed
    if c.skip = 0 ∧ member.hasRetainable = true then
      let inferior ← parseRepeated member.parse count c.inferior
      return ⟨inferior.performed,
        alignUp c.offset (2 ^ member.alignmentLog) + count * member.size, c.skip⟩
    else return c
  | .struct members, c => parseMembers members c
  | .union members, c =>
    if anyRetainable members = true then .error c.performed
    else do
      let c := (← parseMembers members c.opened).closed
      return c.leaf (alignUp (maxSize members) (2 ^ maxAlignmentLog members))
        (2 ^ maxAlignmentLog members) none

/-- The members of a struct or a union. -/
def parseMembers : List Ty → PerformContext → Except (List Member) PerformContext
  | [], c => .ok c
  | t :: ts, c => do parseMembers ts (← t.parse c)

end

/-- `-_performArgumentMemberOperation:withArgument:signatureTypeInfo:bytes:length:`, with the
members that were operated on. -/
def performArgumentMemberOperation (t : Ty) : Except (List Member) (List Member) := do
  let c ← t.parse ⟨[], 0, 0⟩
  return c.performed

/-- A type that owns nothing has no union that does. -/
theorem hasOwnedUnion_of_not_hasRetainable (t : Ty) (h : t.hasRetainable = false) :
    t.hasOwnedUnion = false := by
  induction t using Ty.induction (Q := fun ts => anyRetainable ts = false →
    anyOwnedUnion ts = false) with
  | scalar | cls | assignId | retainId | copyId | charPtr => rfl
  | array count member ih =>
    rw [hasOwnedUnion]
    exact ih (by simpa [hasRetainable] using h)
  | struct members ih =>
    rw [hasOwnedUnion]
    exact ih (by simpa [hasRetainable] using h)
  | union members => simpa [hasOwnedUnion, hasRetainable] using h
  | nil => rfl
  | cons t ts iht ihts h =>
    obtain ⟨ht, hts⟩ := Bool.or_eq_false_iff.mp h
    rw [anyOwnedUnion, iht ht, ihts hts]
    rfl

/-- Skipped constituents change nothing, but throw if they have a union that owns something. -/
theorem parse_of_skip (t : Ty) {c : PerformContext} (hskip : 0 < c.skip) :
    t.parse c = if t.hasOwnedUnion = true then .error c.performed else .ok c := by
  induction t using Ty.induction (Q := fun ts => ∀ {c : PerformContext}, 0 < c.skip →
    parseMembers ts c = if anyOwnedUnion ts = true then .error c.performed else .ok c)
    generalizing c with
  | scalar | cls | assignId | retainId | copyId | charPtr =>
    simp [parse, PerformContext.leaf, hasOwnedUnion, Nat.ne_of_gt hskip]
  | array count member ih =>
    rw [parse, hasOwnedUnion, ih (c := c.opened) (Nat.succ_pos _)]
    split
    · rfl
    · simp [PerformContext.opened, PerformContext.closed, Nat.ne_of_gt hskip, bind, Except.bind,
        pure, Except.pure]
  | struct members ih =>
    rw [parse, hasOwnedUnion]
    exact ih hskip
  | union members ih =>
    rw [parse, hasOwnedUnion]
    split
    · rfl
    · next hnot =>
      have hnone := (struct members).hasOwnedUnion_of_not_hasRetainable
        (by simpa [hasRetainable] using hnot)
      rw [hasOwnedUnion] at hnone
      rw [ih (c := c.opened) (Nat.succ_pos _), hnone]
      simp [PerformContext.leaf, PerformContext.opened, PerformContext.closed,
        Nat.ne_of_gt hskip, bind, Except.bind, pure, Except.pure]
  | nil hskip => rfl
  | cons t ts iht ihts hskip =>
    rw [parseMembers, anyOwnedUnion, iht hskip]
    cases t.hasOwnedUnion with
    | true => rfl
    | false => exact ihts hskip

/-- As `parse_eq_after`, for the elements of an array. -/
theorem parseRepeated_eq_after {parse : PerformContext → Except (List Member) PerformContext}
    {f : ℕ → Walk} (h : ∀ {c : PerformContext}, c.skip = 0 → parse c = c.after (f c.offset))
    (n : ℕ) {c : PerformContext} (hskip : c.skip = 0) :
    parseRepeated parse n c = c.after (Walk.repeated f n c.offset) := by
  induction n generalizing c with
  | zero =>
    obtain ⟨performed, offset, skip⟩ := c
    obtain rfl : skip = 0 := hskip
    simp [parseRepeated, Walk.repeated, PerformContext.after]
  | succ n ih =>
    rw [parseRepeated, Walk.repeated, ← PerformContext.after_andThen, h hskip]
    unfold PerformContext.after
    cases (f c.offset).offset with
    | none => rfl
    | some o => exact ih rfl

/-- Outside of arrays and unions the callbacks walk over the type. -/
theorem parse_eq_after (t : Ty) {c : PerformContext} (hskip : c.skip = 0) :
    t.parse c = c.after (t.walk c.offset) := by
  induction t using Ty.induction (Q := fun ts => ∀ {c : PerformContext}, c.skip = 0 →
    parseMembers ts c = c.after (walkMembers ts c.offset)) generalizing c with
  | scalar | cls | assignId | retainId | copyId | charPtr =>
    rw [parse, walk]
    exact PerformContext.leaf_eq_after hskip ..
  | array count member ih =>
    simp only [parse, walk]
    rw [member.parse_of_skip (Nat.succ_pos _ : 0 < c.opened.skip)]
    split
    · simp [PerformContext.after, PerformContext.opened, bind, Except.bind]
    · have hclosed : c.opened.closed = c := rfl
      simp only [bind, Except.bind, hclosed, hskip, true_and]
      split
      · rw [parseRepeated_eq_after ih count (rfl : c.inferior.skip = 0)]
        unfold PerformContext.after PerformContext.inferior
        cases (Walk.repeated member.walk count c.offset).offset with
        | none => rfl
        | some o => rfl
      · obtain ⟨performed, offset, skip⟩ := c
        obtain rfl : skip = 0 := hskip
        simp [PerformContext.after, pure, Except.pure]
  | struct members ih =>
    rw [parse, walk]
    exact ih hskip
  | union members ih =>
    simp only [parse, walk]
    split
    · simp [PerformContext.after]
    · next hnot =>
      have hskipped : (struct members).parse c.opened = _ := parse_of_skip _ (Nat.succ_pos _)
      rw [(struct members).hasOwnedUnion_of_not_hasRetainable
        (by simpa [hasRetainable] using hnot), parse] at hskipped
      have hclosed : c.opened.closed = c := rfl
      simp only [hskipped, Bool.false_eq_true, if_false, bind, Except.bind, hclosed]
      exact PerformContext.leaf_eq_after hskip ..
  | nil hskip =>
    rename_i c
    obtain ⟨performed, offset, skip⟩ := c
    obtain rfl : skip = 0 := hskip
    simp [parseMembers, walkMembers, PerformContext.after]
  | cons t ts iht ihts hskip =>
    rw [parseMembers, walkMembers, ← PerformContext.after_andThen, iht hskip]
    unfold PerformContext.after
    cases (t.walk _).offset with
    | none => rfl
    | some o => exact ihts rfl

/-- What is operated on is what the walk finds, unless it throws. -/
theorem performArgumentMemberOperation_eq {t : Ty} (h : t.hasOwnedUnion = false) :
    t.performArgumentMemberOperation = .ok (t.walk 0).members := by
  obtain ⟨o, ho⟩ := t.walk_offset h 0
  rw [performArgumentMemberOperation, t.parse_eq_after rfl, PerformContext.after]
  simp [ho, bind, Except.bind, pure, Except.pure]

end Ty

end MulleObjC.Invocation
