import Mathlib.Data.List.Forall2
import MulleObjC.Invocation.Callback
import MulleObjC.Invocation.Layout

/-!
# Types whose members are packed

The walk over a type goes over its constituents at their own alignment. It aligns no struct,
adds no padding behind one, and does not go over an array that owns nothing. It is right
again at each owned member and behind an array of them. So it finds the owned members of
the types in which nothing that it leaves out moves an owned member.
-/

namespace MulleObjC.Invocation

/-- What a walk meets, with the offsets that the platform gives it. -/
inductive Piece
  /-- A constituent that owns nothing. -/
  | plain (size alignment : ℕ)
  /-- An owned member. -/
  | owned (offset : ℕ)
  /-- The end of an array with owned members. -/
  | behind (offset : ℕ)
  deriving DecidableEq, Repr

/-- What a walk has found, and what the next one finds. -/
theorem Walk.members_andThen {w : Walk} {o : ℕ} (ho : w.offset = some o) (f : ℕ → Walk) :
    (w.andThen f).members = w.members ++ (f o).members := by
  rw [Walk.andThen, ho]

namespace Ty

mutual

/-- The pieces of a value that starts at an offset. An array that owns nothing is none. -/
def pieces : Ty → ℕ → List Piece
  | .scalar s, _ => [.plain s.size (2 ^ s.alignmentLog)]
  | .cls, _ | .assignId, _ => [.plain 8 8]
  | .retainId, o | .copyId, o | .charPtr, o => [.owned o]
  | .array count member, o =>
    if member.hasRetainable = false then []
    else if (Ty.array count member).layout o = [] then
      [.plain (count * member.size) (2 ^ member.alignmentLog)]
    else ((List.range count).flatMap fun i => member.pieces (o + i * member.size)) ++
      [.behind (o + count * member.size)]
  | .struct members, o => piecesMembers members o 0
  | .union members, _ =>
    [.plain (alignUp (maxSize members) (2 ^ maxAlignmentLog members))
      (2 ^ maxAlignmentLog members)]

/-- The pieces of the members of a struct that starts at an offset, from a distance to it
on. -/
def piecesMembers : List Ty → ℕ → ℕ → List Piece
  | [], _, _ => []
  | t :: ts, o, c =>
    t.pieces (o + alignUp c (2 ^ t.alignmentLog)) ++
      piecesMembers ts o (alignUp c (2 ^ t.alignmentLog) + t.size)

end

/-- From an offset on, the pieces in front of each owned member are packed up to it. -/
def PackedFrom : ℕ → List Piece → Prop
  | _, [] => True
  | o, .plain size alignment :: ps => PackedFrom (alignUp o alignment + size) ps
  | o, .owned p :: ps => alignUp o 8 = p ∧ PackedFrom (p + 8) ps
  | _, .behind p :: ps => PackedFrom p ps

/-- In front of each owned member there is nothing but constituents of their own, one behind
the other. -/
def Packed (t : Ty) : Prop := PackedFrom 0 (t.pieces 0)

instance decidablePackedFrom (o : ℕ) (ps : List Piece) : Decidable (PackedFrom o ps) :=
  match ps with
  | [] => isTrue trivial
  | .plain _ _ :: ps => decidablePackedFrom _ ps
  | .owned _ :: ps => @instDecidableAnd _ _ _ (decidablePackedFrom _ ps)
  | .behind _ :: ps => decidablePackedFrom _ ps

instance (t : Ty) : Decidable t.Packed := decidablePackedFrom 0 (t.pieces 0)

/-- The first element, and the others. -/
theorem flatMap_range_succ {α : Type*} (f : ℕ → List α) (n : ℕ) :
    (List.range (n + 1)).flatMap f = f 0 ++ (List.range n).flatMap fun i => f (i + 1) := by
  rw [List.range_succ_eq_map, List.flatMap_cons, List.flatMap_map]

/-- A value that starts further behind has its members as much further behind. -/
theorem layout_add (t : Ty) (o d : ℕ) :
    t.layout (o + d) = (t.layout o).map fun m => ⟨m.kind, m.offset + d⟩ := by
  induction t using Ty.induction (Q := fun ts => ∀ o c, layoutMembers ts (o + d) c =
    (layoutMembers ts o c).map fun m => ⟨m.kind, m.offset + d⟩) generalizing o with
  | scalar | cls | assignId | retainId | copyId | charPtr | union => simp [layout]
  | array count member ih =>
    rw [layout, layout, List.map_flatMap]
    refine List.flatMap_congr fun i _ => ?_
    rw [← ih]
    congr 1
    omega
  | struct members ih =>
    rw [layout, layout]
    exact ih o 0
  | nil o c => rfl
  | cons t ts iht ihts o c =>
    rw [layoutMembers, layoutMembers, List.map_append, ← ihts, ← iht]
    congr 2
    omega

/-- What owns nothing has no owned members. -/
theorem layout_of_not_hasRetainable (t : Ty) (h : t.hasRetainable = false) (o : ℕ) :
    t.layout o = [] := by
  induction t using Ty.induction (Q := fun ts => anyRetainable ts = false →
    ∀ o c, layoutMembers ts o c = []) generalizing o with
  | scalar | cls | assignId | union => rfl
  | retainId | copyId | charPtr => cases h
  | array count member ih =>
    rw [layout, List.flatMap_eq_nil_iff]
    exact fun i _ => ih (by simpa [hasRetainable] using h) _
  | struct members ih =>
    rw [layout]
    exact ih (by simpa [hasRetainable] using h) o 0
  | nil _ o c => rfl
  | cons t ts iht ihts h o c =>
    obtain ⟨ht, hts⟩ := Bool.or_eq_false_iff.mp h
    rw [layoutMembers, iht ht, ihts hts]
    rfl

/-- The members of one list are in front of those of another, one by one. -/
def Before (ms ms' : List Member) : Prop :=
  List.Forall₂ (fun m m' => m.offset ≤ m'.offset) ms ms'

/-- As `before_layout`, for the elements of an array. -/
theorem before_repeated {f : ℕ → Walk} {layout : ℕ → List Member} {size alignment : ℕ}
    (hdvd : alignment ∣ size)
    (hf : ∀ {o p}, alignment ∣ p → o ≤ p → ∃ o', (f o).offset = some o' ∧ o' ≤ p + size ∧
      Before (f o).members (layout p)) (n : ℕ) {o p : ℕ} (hp : alignment ∣ p) (hle : o ≤ p) :
    Before (Walk.repeated f n o).members
      ((List.range n).flatMap fun i => layout (p + i * size)) := by
  induction n generalizing o p with
  | zero => exact .nil
  | succ n ih =>
    obtain ⟨o', ho', hend, hbefore⟩ := hf hp hle
    have hrest := ih (Nat.dvd_add hp hdvd) hend
    have hmove : (fun i => layout (p + (i + 1) * size)) =
        fun i => layout (p + size + i * size) := by
      funext i
      rw [Nat.add_mul, Nat.one_mul]
      congr 1
      omega
    rw [flatMap_range_succ, Walk.repeated, Walk.members_andThen ho', hmove, Nat.zero_mul]
    exact List.rel_append hbefore hrest

/-- The offset that a walk reaches is not behind the space of the type. -/
theorem exists_walk_offset {t : Ty} (h : t.hasOwnedUnion = false) {o p : ℕ}
    (hp : t.alignment ∣ p) (hle : o ≤ p) : ∃ o', (t.walk o).offset = some o' ∧ o' ≤ p + t.size := by
  obtain ⟨o', ho'⟩ := t.walk_offset h o
  have hreached := ((t.walk_fits o).reached o' ho').2.1
  have halign := alignUp.le_of_dvd t.alignment_pos hp hle
  exact ⟨o', ho', by omega⟩

/-- A walk that starts in front of a value finds its members in front of them. -/
theorem before_layout (t : Ty) (h : t.hasOwnedUnion = false) {o p : ℕ} (hp : t.alignment ∣ p)
    (hle : o ≤ p) : Before (t.walk o).members (t.layout p) := by
  induction t using Ty.induction (Q := fun ts => anyOwnedUnion ts = false → ∀ o p c,
    2 ^ maxAlignmentLog ts ∣ p → o ≤ p + c →
      Before (walkMembers ts o).members (layoutMembers ts p c)) generalizing o p with
  | scalar | cls | assignId => exact .nil
  | retainId | copyId | charPtr => exact .cons (alignUp.le_of_dvd (by decide) hp hle) .nil
  | array count member ih =>
    have hmember : member.hasOwnedUnion = false := by simpa [hasOwnedUnion] using h
    simp only [walk, layout, hmember, Bool.false_eq_true, if_false]
    split
    · refine before_repeated member.alignment_dvd_size (fun {o p} hp hle => ?_) count hp hle
      obtain ⟨o', ho', hend⟩ := exists_walk_offset hmember hp hle
      exact ⟨o', ho', hend, ih hmember hp hle⟩
    · next hnot =>
      have hnone := (array count member).layout_of_not_hasRetainable
        (by simpa [hasRetainable] using hnot) p
      rw [layout] at hnone
      rw [hnone]
      exact .nil
  | struct members ih =>
    rw [walk, layout]
    exact ih (by simpa [hasOwnedUnion] using h) o p 0 hp hle
  | union members =>
    have hmembers : anyRetainable members = false := by simpa [hasOwnedUnion] using h
    simp only [walk, layout, hmembers]
    exact .nil
  | nil => exact .nil
  | cons t ts iht ihts h o p c hp hle =>
    obtain ⟨ht, hts⟩ := Bool.or_eq_false_iff.mp h
    have hpt : t.alignment ∣ p + alignUp c (2 ^ t.alignmentLog) :=
      Nat.dvd_add (Nat.dvd_trans (Nat.pow_dvd_pow 2 (Nat.le_max_left _ _)) hp) alignUp.dvd
    have hlet : o ≤ p + alignUp c (2 ^ t.alignmentLog) :=
      hle.trans (Nat.add_le_add_left (alignUp.le t.alignment_pos) p)
    obtain ⟨o', ho', hend⟩ := exists_walk_offset ht hpt hlet
    rw [walkMembers, layoutMembers, Walk.members_andThen ho']
    refine List.rel_append (iht ht hpt hlet) (ihts hts o' p _ ?_ (by omega))
    exact Nat.dvd_trans (Nat.pow_dvd_pow 2 (Nat.le_max_right _ _)) hp

/-- A walk that finds the members of a value, of which there are some, is as far as the value
when it is aligned. -/
theorem alignUp_eq_of_members {t : Ty} (h : t.hasOwnedUnion = false) {o p : ℕ}
    (hp : t.alignment ∣ p) (hle : o ≤ p) (hne : t.layout p ≠ [])
    (hmembers : (t.walk o).members = t.layout p) : alignUp o t.alignment = p := by
  have hbefore := t.before_layout h alignUp.dvd (alignUp.le (n := o) t.alignment_pos)
  obtain ⟨d, hd⟩ := Nat.exists_eq_add_of_le (alignUp.le_of_dvd t.alignment_pos hp hle)
  have hmove := t.layout_add (alignUp o t.alignment) d
  rw [← hd] at hmove
  rw [hmembers, hmove] at hbefore
  cases hlayout : t.layout (alignUp o t.alignment) with
  | nil =>
    rw [hlayout] at hmove
    exact absurd hmove hne
  | cons m ms =>
    rw [hlayout] at hbefore
    have hfirst : m.offset + d ≤ m.offset := (List.forall₂_cons.mp hbefore).1
    omega

/-- As `packedFrom_pieces`, for the elements of an array. -/
theorem packedFrom_repeated {f : ℕ → Walk} {layout : ℕ → List Member} {pieces : ℕ → List Piece}
    {size alignment : ℕ} (hdvd : alignment ∣ size)
    (hf : ∀ {o p}, alignment ∣ p → o ≤ p → ∃ o', (f o).offset = some o' ∧ o' ≤ p + size ∧
      Before (f o).members (layout p) ∧ ∀ rest, PackedFrom o (pieces p ++ rest) ↔
        (f o).members = layout p ∧ PackedFrom o' rest) (n : ℕ) {o p : ℕ} (hp : alignment ∣ p)
    (hle : o ≤ p) : ∃ o', (Walk.repeated f n o).offset = some o' ∧ ∀ rest,
      (PackedFrom o (((List.range n).flatMap fun i => pieces (p + i * size)) ++ rest) ↔
        (Walk.repeated f n o).members = ((List.range n).flatMap fun i => layout (p + i * size)) ∧
          PackedFrom o' rest) := by
  induction n generalizing o p with
  | zero => exact ⟨o, rfl, fun rest => by simp [Walk.repeated]⟩
  | succ n ih =>
    obtain ⟨o₁, ho₁, hend, hbefore, hfirst⟩ := hf hp hle
    obtain ⟨o₂, ho₂, hrest⟩ := ih (Nat.dvd_add hp hdvd) hend
    have hmove (i : ℕ) : p + (i + 1) * size = p + size + i * size := by
      rw [Nat.add_mul, Nat.one_mul]
      omega
    refine ⟨o₂, by rw [Walk.repeated, Walk.offset_andThen ho₁, ho₂], fun rest => ?_⟩
    rw [flatMap_range_succ, flatMap_range_succ, Walk.repeated, Walk.members_andThen ho₁,
      List.append_assoc, Nat.zero_mul]
    simp only [hmove, Nat.add_zero]
    rw [hfirst, hrest, List.append_eq_append_iff_of_size_eq_left hbefore.length_eq, and_assoc]

/-- The pieces of a value are packed if the walk finds its members, and those behind it if
they are packed from where the walk has ended. -/
theorem packedFrom_pieces (t : Ty) (h : t.hasOwnedUnion = false) {o p : ℕ}
    (hp : t.alignment ∣ p) (hle : o ≤ p) {o' : ℕ} (ho' : (t.walk o).offset = some o')
    (rest : List Piece) : PackedFrom o (t.pieces p ++ rest) ↔
      (t.walk o).members = t.layout p ∧ PackedFrom o' rest := by
  induction t using Ty.induction (Q := fun ts => anyOwnedUnion ts = false → ∀ o p c o',
    2 ^ maxAlignmentLog ts ∣ p → o ≤ p + c → (walkMembers ts o).offset = some o' → ∀ rest,
      (PackedFrom o (piecesMembers ts p c ++ rest) ↔
        (walkMembers ts o).members = layoutMembers ts p c ∧ PackedFrom o' rest))
    generalizing o p o' rest with
  | scalar | cls | assignId =>
    obtain rfl := Option.some.inj ho'
    exact ⟨fun hpacked => ⟨rfl, hpacked⟩, fun hpacked => hpacked.2⟩
  | retainId | copyId | charPtr =>
    obtain rfl := Option.some.inj ho'
    constructor
    · rintro ⟨rfl, hpacked⟩
      exact ⟨rfl, hpacked⟩
    · rintro ⟨hmembers, hpacked⟩
      obtain rfl : alignUp o 8 = p := congrArg Member.offset (List.cons.inj hmembers).1
      exact ⟨rfl, hpacked⟩
  | array count member ih =>
    have hmember : member.hasOwnedUnion = false := by simpa [hasOwnedUnion] using h
    have hbefore := (array count member).before_layout h hp hle
    have hsync := fun hne => alignUp_eq_of_members h hp hle hne
    rw [pieces]
    simp only [walk, hmember, Bool.false_eq_true, if_false] at ho' hbefore hsync ⊢
    by_cases hretainable : member.hasRetainable = true
    · simp only [hretainable, if_true] at ho' hbefore hsync ⊢
      obtain ⟨o₁, ho₁, hrepeated⟩ := packedFrom_repeated member.alignment_dvd_size
        (fun {o p} hp hle => by
          obtain ⟨o', ho', hend⟩ := exists_walk_offset hmember hp hle
          exact ⟨o', ho', hend, member.before_layout hmember hp hle, ih hmember hp hle ho'⟩)
        count hp hle
      rw [ho₁] at ho'
      obtain rfl := Option.some.inj ho'
      simp only [Bool.true_eq_false, if_false]
      split
      · -- an array of no elements is walked over like a scalar
        next hnone =>
        rw [hnone] at hbefore ⊢
        exact ⟨fun hpacked => ⟨List.forall₂_nil_right_iff.mp hbefore, hpacked⟩,
          fun hpacked => hpacked.2⟩
      · next hne =>
        rw [List.append_assoc, hrepeated]
        refine and_congr_right fun hmembers => ?_
        have haligned : alignUp o (2 ^ member.alignmentLog) = p := hsync hne hmembers
        rw [haligned]
        rfl
    · rw [Bool.not_eq_true] at hretainable
      have hnone := (array count member).layout_of_not_hasRetainable
        (by rwa [hasRetainable]) p
      simp only [hretainable, Bool.false_eq_true, if_false, if_true, hnone, true_and] at ho' ⊢
      obtain rfl := Option.some.inj ho'
      exact Iff.rfl
  | struct members ih =>
    rw [walk] at ho' ⊢
    rw [layout, pieces]
    exact ih (by simpa [hasOwnedUnion] using h) o p 0 o' hp hle ho' rest
  | union members =>
    have hmembers : anyRetainable members = false := by simpa [hasOwnedUnion] using h
    simp only [walk, hmembers] at ho' ⊢
    obtain rfl := Option.some.inj ho'
    exact ⟨fun hpacked => ⟨rfl, hpacked⟩, fun hpacked => hpacked.2⟩
  | nil _ o p c o' hp hle ho' rest =>
    obtain rfl := Option.some.inj ho'
    exact ⟨fun hpacked => ⟨rfl, hpacked⟩, fun hpacked => hpacked.2⟩
  | cons t ts iht ihts h o p c o' hp hle ho' rest =>
    obtain ⟨ht, hts⟩ := Bool.or_eq_false_iff.mp h
    have hpt : t.alignment ∣ p + alignUp c (2 ^ t.alignmentLog) :=
      Nat.dvd_add (Nat.dvd_trans (Nat.pow_dvd_pow 2 (Nat.le_max_left _ _)) hp) alignUp.dvd
    have hpts := Nat.dvd_trans (Nat.pow_dvd_pow 2 (Nat.le_max_right t.alignmentLog _)) hp
    have hlet : o ≤ p + alignUp c (2 ^ t.alignmentLog) :=
      hle.trans (Nat.add_le_add_left (alignUp.le t.alignment_pos) p)
    obtain ⟨o₁, ho₁, hend⟩ := exists_walk_offset ht hpt hlet
    rw [walkMembers, Walk.offset_andThen ho₁] at ho'
    rw [piecesMembers, walkMembers, layoutMembers, Walk.members_andThen ho₁, List.append_assoc,
      iht ht hpt hlet ho₁, ihts hts o₁ p _ o' hpts (by omega) ho',
      List.append_eq_append_iff_of_size_eq_left (t.before_layout ht hpt hlet).length_eq, and_assoc]

/-- The members that are operated on are the owned members, at the offsets that the platform
gives them, for exactly the types whose members are packed. -/
theorem performArgumentMemberOperation_iff {t : Ty} (h : t.hasOwnedUnion = false) :
    t.performArgumentMemberOperation = .ok (t.layout 0) ↔ t.Packed := by
  obtain ⟨o, ho⟩ := t.walk_offset h 0
  have hpacked := t.packedFrom_pieces h (Nat.dvd_zero _) le_rfl ho []
  rw [List.append_nil] at hpacked
  rw [performArgumentMemberOperation_eq h, Except.ok.injEq, Packed, hpacked]
  exact (and_iff_left trivial).symm

/-- `struct { char *key; id value; struct { char *keys[ 2]; id values[ 2]; } inner; }` -/
def keyValue : Ty :=
  .struct [.charPtr, .retainId, .struct [.array 2 .charPtr, .array 2 .retainId]]

theorem keyValue_members_found :
    keyValue.performArgumentMemberOperation =
      .ok [⟨.charPtr, 0⟩, ⟨.retainId, 8⟩, ⟨.charPtr, 16⟩, ⟨.charPtr, 24⟩, ⟨.retainId, 32⟩,
        ⟨.retainId, 40⟩] :=
  (performArgumentMemberOperation_iff (by decide)).mpr (by decide)

/-- The type of a `char`. -/
def charType : Ty := .scalar ⟨1, 0, Nat.one_dvd 1⟩

/-- The object in `struct { char text[ 16]; id value; }` is looked for in the text. -/
theorem object_behind_text_missed :
    (struct [.array 16 charType, .retainId]).performArgumentMemberOperation =
        .ok [⟨.retainId, 0⟩] ∧
      (struct [.array 16 charType, .retainId]).layout 0 = [⟨.retainId, 16⟩] ∧
      ¬ ∀ t : Ty, t.hasOwnedUnion = false →
        t.performArgumentMemberOperation = .ok (t.layout 0) := by
  refine ⟨rfl, rfl, fun hall => ?_⟩
  have hfound := hall (struct [.array 16 charType, .retainId]) rfl
  cases hfound

end Ty

end MulleObjC.Invocation
