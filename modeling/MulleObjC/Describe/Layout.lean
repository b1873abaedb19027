import MulleObjC.Describe.Nesting

/-!
# Descriptions and the layout of a type

`_MulleObjCDescribeMemory` aligns each scalar behind the scalar before. The platform aligns each
member in its struct, and pads structs and unions at the end.
-/

namespace MulleObjC.Describe

open Encoding (encodeAll)

namespace Encoding

mutual

/-- The values of a type from `p` on, as the platform lays them out. A union is seen as its first
member. -/
def abiReads : Encoding → ℕ → List Read
  | scalar s, p => [⟨.scalar s, p⟩]
  | opaquePointer _, p | pointer _, p => [⟨.pointer, p⟩]
  | array count element, p =>
    (List.range count).flatMap fun i => element.abiReads (p + i * element.size)
  | struct _ members, p => memberReads members p 0
  | union _ members, p => firstReads members p

/-- The values of members that are laid out from an offset on. -/
def memberReads : List Encoding → ℕ → ℕ → List Read
  | [], _, _ => []
  | t :: ts, p, o =>
    t.abiReads (p + alignUp o t.alignment) ++ memberReads ts p (alignUp o t.alignment + t.size)

/-- The values of the first member. -/
def firstReads : List Encoding → ℕ → List Read
  | [], _ => []
  | t :: _, p => t.abiReads p

end

mutual

/-- What the values of a type are. -/
def kinds : Encoding → List Kind
  | scalar s => [.scalar s]
  | opaquePointer _ | pointer _ => [.pointer]
  | array count element => (List.replicate count element.kinds).flatten
  | struct _ members => memberKinds members
  | union _ members => firstKinds members

/-- What the values of all members are. -/
def memberKinds : List Encoding → List Kind
  | [] => []
  | t :: ts => t.kinds ++ memberKinds ts

/-- What the values of the first member are. -/
def firstKinds : List Encoding → List Kind
  | [] => []
  | t :: _ => t.kinds

end

mutual

/-- The cursor gets through the type: arrays have elements, as many as `atoi` makes of the count
if the elements have values, and no union is followed by a closing bracket among its own other
members. -/
def Readable : Encoding → Prop
  | scalar _ | opaquePointer _ | pointer _ => True
  | array count element =>
    0 < scannedCount count ∧ (scannedCount count = count ∨ element.kinds = []) ∧ element.Readable
  | struct _ members => AllReadable members
  | union _ members => FirstReadable members

/-- The cursor gets through all members. -/
def AllReadable : List Encoding → Prop
  | [] => True
  | t :: ts => t.Readable ∧ AllReadable ts

/-- The cursor gets through the first member, and to the end of the union. -/
def FirstReadable : List Encoding → Prop
  | [] => True
  | t :: ts => t.Readable ∧ ')' ∉ encodeAll ts

end

theorem map_kind_abiReads (t : Encoding) (p : ℕ) : (t.abiReads p).map Read.kind = t.kinds := by
  induction t using Encoding.induction (Q := fun ts =>
    (∀ p o, (memberReads ts p o).map Read.kind = memberKinds ts) ∧
      ∀ p, (firstReads ts p).map Read.kind = firstKinds ts) generalizing p with
  | scalar | opaquePointer | pointer => simp [abiReads, kinds]
  | array count element ih =>
    rw [abiReads, kinds, List.map_flatMap]
    simp only [ih]
    rw [List.flatMap_def, List.map_const', List.length_range]
  | struct tag members ih =>
    rw [abiReads, kinds]
    exact ih.1 p 0
  | union tag members ih =>
    rw [abiReads, kinds]
    exact ih.2 p
  | nil => exact ⟨fun _ _ => rfl, fun _ => rfl⟩
  | cons t ts iht ihts =>
    constructor
    · intro p o
      rw [memberReads, memberKinds, List.map_append, iht, ihts.1]
    · intro p
      rw [firstReads, firstKinds, iht]

end Encoding

section Readable

variable {nextType : List Char → List Char} {s : List Char}

variable (nextType) in
/-- The type begins every text that goes on behind it. -/
def SpansType (t : Encoding) : Prop :=
  ∀ {s}, t.Readable → StartsWithoutDigit s → Spans nextType (.type (t.encode ++ s)) t.kinds s

/-- The members up to the end of their struct. -/
theorem spans_members {ts : List Encoding} (htype : ∀ t ∈ ts, SpansType nextType t)
    (hts : Encoding.AllReadable ts) (hs : StartsWithoutDigit s) :
    Spans nextType (.members (encodeAll ts ++ '}' :: s)) (Encoding.memberKinds ts) s := by
  induction ts with
  | nil => exact .noMember s
  | cons t ts ih =>
    obtain ⟨ht, hts⟩ := hts
    have hdigit : StartsWithoutDigit (encodeAll ts ++ '}' :: s) :=
      (Boundary.all ts (.close (by decide) .rest)).startsWithoutDigit hs
    rw [Encoding.encodeAll, List.append_assoc]
    refine .member (head_ne t (by decide)) (htype t List.mem_cons_self ht hdigit) ?_
    exact ih (fun t' ht' => htype t' (List.mem_cons_of_mem t ht')) hts

/-- A type that the cursor gets through begins the text, with all of its values. -/
theorem spansType (hnext : SkipsTargets nextType) (t : Encoding) : SpansType nextType t := by
  intro s ht hs
  induction t using Encoding.induction (Q := fun ts => ∀ t ∈ ts, SpansType nextType t)
    generalizing s with
  | scalar scalar => exact .value (.scalar scalar) rfl s
  | opaquePointer target =>
    have hvalue : Spans nextType _ _ _ := .value .pointer rfl (target.encode ++ s)
    rwa [Kind.behind, hnext.target target hs] at hvalue
  | pointer target =>
    have hvalue : Spans nextType _ _ _ := .value .pointer rfl (target.encode ++ s)
    rwa [Kind.behind, hnext.encoding target hs] at hvalue
  | array count element ih =>
    obtain ⟨hpos, hcount, helement⟩ := ht
    have hdigit : StartsWithoutDigit (']' :: s) :=
      (Boundary.close (by decide) .rest).startsWithoutDigit hs
    have hfirst := element.startsWithoutDigit_encode (']' :: s)
    have hkinds : (Encoding.array count element).kinds =
        (List.replicate (scannedCount count).toNat element.kinds).flatten := by
      rcases hcount with hcount | hcount
      · rw [Encoding.kinds, hcount, Int.toNat_natCast]
      · simp [Encoding.kinds, hcount]
    rw [encode_array, hkinds]
    refine .array (by rwa [atoi_count count hfirst]) ?_
    rw [atoi_count count hfirst, dropWhile_count count hfirst]
    exact .elements (by omega) (ih helement hdigit)
  | struct tag members ih =>
    rw [encode_struct]
    exact .struct (tag_equals_notMem tag) rfl (spans_members ih ht hs)
  | union tag members ih =>
    rw [encode_union]
    cases members with
    | nil => exact .emptyUnion (tag_equals_notMem tag) rfl
    | cons t ts =>
      have hdigit : StartsWithoutDigit (encodeAll ts ++ ')' :: s) :=
        (Boundary.all ts (.close (by decide) .rest)).startsWithoutDigit hs
      rw [Encoding.encodeAll, List.append_assoc]
      exact .union (tag_equals_notMem tag) rfl (head_ne t (by decide)) ht.2
        (ih t List.mem_cons_self ht.1 hdigit)
  | nil t ht => simp at ht
  | cons t ts iht ihts t' ht' =>
    rcases List.mem_cons.mp ht' with rfl | ht'
    · exact iht
    · exact ihts t' ht'

end Readable

section Exact

variable {nextType : List Char → List Char} {printer : Printer} {sentinel p p' : ℕ}
  {s r rest : List Char} {reads : List Read}

variable (nextType printer sentinel rest) in
/-- If no closing bracket is too many behind the type, the cursor has got through it. -/
def ReadsExactly (t : Encoding) : Prop :=
  ∀ {p p' s r reads}, Decodes nextType printer sentinel (.type (t.encode ++ s)) p reads r p' →
    Boundary rest s → rest <:+ r → surplus r ≤ surplus s →
    r = s ∧ reads.length ≤ t.kinds.length ∧ (reads.length = t.kinds.length → t.Readable)

theorem Decodes.scalar_exact {kind : Kind} {m : List Char}
    (hplan : plan nextType printer sentinel p m = planScalar printer sentinel kind p s)
    (h : Decodes nextType printer sentinel (.type m) p reads r p') : r = s ∧ reads.length = 1 := by
  have hq := h.of_type
  rw [hplan] at hq
  rcases planScalar_cases printer sentinel kind p s with
    hnull | hundefined | ⟨q, text, reads', hleaf⟩
  · rw [hnull] at hq
    exact hq.elim
  · rw [hundefined] at hq
    exact hq.elim
  · rw [hleaf] at hq
    obtain ⟨_, hr, rfl⟩ := hq
    obtain ⟨_, _, _, _, rfl⟩ := planScalar_eq_leaf_iff.mp hleaf
    exact ⟨(Option.some.inj hr).symm, rfl⟩

theorem Decodes.members_exact (hnext : SkipsTargets nextType) (hrest : StartsWithoutDigit rest)
    {ts : List Encoding} (htype : ∀ t ∈ ts, ReadsExactly nextType printer sentinel rest t)
    (h : Decodes nextType printer sentinel (.members (encodeAll ts ++ '}' :: s)) p reads r p')
    (hs : Boundary rest s) (hr : rest <:+ r) (hle : surplus r ≤ surplus s) :
    r = s ∧ reads.length ≤ (Encoding.memberKinds ts).length ∧
      (reads.length = (Encoding.memberKinds ts).length → Encoding.AllReadable ts) := by
  induction ts generalizing p reads with
  | nil =>
    rcases h.of_members with ⟨hm, rfl⟩ | ⟨hm, _⟩
    · exact ⟨(List.cons.inj hm).2.symm, Nat.zero_le _, fun _ => trivial⟩
    · exact absurd rfl hm
  | cons t ts ih =>
    rw [Encoding.encodeAll, List.append_assoc] at h
    rcases h.of_members with ⟨hm, _⟩ | ⟨_, m', q, first, others, hfirst, hothers, rfl⟩
    · exact absurd (congrArg List.head? hm) (head_ne t (by decide))
    have hboundary : Boundary rest (encodeAll ts ++ '}' :: s) := .all ts (.close (by decide) hs)
    have hsurplus : surplus (encodeAll ts ++ '}' :: s) = surplus s := by
      rw [surplus_append, surplus_encodeAll, surplus_cons (by decide) (by decide)]
      omega
    have hr' := hr.trans (hothers.suffix hnext.pointer).1
    have hm' := (hfirst.boundary hnext hrest hr' (.type t hboundary)).1
    have hle' := (hothers.boundary hnext hrest hr hm').2
    rw [Task.text] at hr' hle'
    obtain ⟨rfl, hlength, hreadable⟩ := htype t List.mem_cons_self hfirst hboundary hr' (by omega)
    obtain ⟨hrs, hlength', hreadable'⟩ :=
      ih (fun t' ht' => htype t' (List.mem_cons_of_mem t ht')) hothers
    refine ⟨hrs, ?_, ?_⟩
    · rw [Encoding.memberKinds, List.length_append, List.length_append]
      omega
    · intro heq
      rw [Encoding.memberKinds, List.length_append, List.length_append] at heq
      exact ⟨hreadable (by omega), hreadable' (by omega)⟩

/-- A union ends with its own bracket. -/
theorem Decodes.union_exact {t : Encoding} {ts : List Encoding} {skipped : List Char}
    (htype : ReadsExactly nextType printer sentinel rest t) (hskipped : ')' ∉ skipped)
    (h : Decodes nextType printer sentinel (.type (t.encode ++ (encodeAll ts ++ ')' :: s))) p reads
      (skipped ++ ')' :: r) p')
    (hs : Boundary rest s) (hr : rest <:+ r) (hle : surplus r ≤ surplus s) :
    r = s ∧ ')' ∉ encodeAll ts ∧ reads.length ≤ t.kinds.length ∧
      (reads.length = t.kinds.length → t.Readable) := by
  have hboundary : Boundary rest (encodeAll ts ++ ')' :: s) := .all ts (.close (by decide) hs)
  have hsurplus : surplus (encodeAll ts ++ ')' :: s) = surplus s + 1 := by
    rw [surplus_append, surplus_encodeAll, surplus_close]
    omega
  have hsurplus' : surplus (skipped ++ ')' :: r) = surplus skipped + (surplus r + 1) := by
    rw [surplus_append, surplus_close]
  have hnonpos := surplus_nonpos hskipped
  have hr' : rest <:+ skipped ++ ')' :: r :=
    hr.trans ((List.suffix_cons _ _).trans (List.suffix_append _ _))
  obtain ⟨htext, hlength⟩ := htype h hboundary hr' (by omega)
  rw [htext] at hsurplus'
  have hclose : ')' ∉ encodeAll ts := by
    intro hmem
    obtain ⟨front, back, hts, hfront⟩ := List.eq_append_cons_of_mem hmem
    -- The cursor stops at the first closing bracket, and the opening one before is not closed.
    have hscan : scan ')' (skipped ++ ')' :: r) = some (skipped, r) := scan_append hskipped
    rw [htext, hts, List.append_assoc, List.cons_append, scan_append hfront, Option.some.injEq,
      Prod.mk.injEq] at hscan
    obtain ⟨rfl, _⟩ := hscan
    have hneg := surplus_neg hskipped (open_mem_of_encodeAll ts hts)
    omega
  have hscan : scan ')' (skipped ++ ')' :: r) = some (skipped, r) := scan_append hskipped
  rw [htext, scan_append hclose, Option.some.injEq, Prod.mk.injEq] at hscan
  exact ⟨hscan.2.symm, hclose, hlength⟩

/-- If no factor is larger and the products are equal, so are the factors. -/
theorem factors_eq {n k l m : ℕ} (hn : n ≤ k) (hl : l ≤ m) (hpos : 0 < n) (h : n * l = k * m) :
    (n = k ∨ m = 0) ∧ l = m := by
  have hright := Nat.mul_le_mul_left n hl
  have hleft := Nat.mul_le_mul_right m hn
  have hl' : l = m := Nat.eq_of_mul_eq_mul_left hpos (by omega)
  refine ⟨?_, hl'⟩
  subst hl'
  rcases Nat.eq_zero_or_pos l with hzero | hl'
  · exact .inr hzero
  · exact .inl (Nat.eq_of_mul_eq_mul_right hl' h)

/-- Every type is read exactly, if no closing bracket is too many behind it. -/
theorem readsExactly (hnext : SkipsTargets nextType) (hrest : StartsWithoutDigit rest)
    (t : Encoding) : ReadsExactly nextType printer sentinel rest t := by
  intro p p' s r reads h hs hr hle
  induction t using Encoding.induction (Q := fun ts =>
    ∀ t ∈ ts, ReadsExactly nextType printer sentinel rest t) generalizing p p' s r reads with
  | scalar scalar =>
    obtain ⟨rfl, hlength⟩ := h.scalar_exact (plan_encode_scalar scalar)
    exact ⟨rfl, hlength.le, fun _ => trivial⟩
  | opaquePointer target =>
    have hdigit := hs.startsWithoutDigit hrest
    obtain ⟨rfl, hlength⟩ := h.scalar_exact (plan_encode_target hnext hdigit target)
    exact ⟨rfl, hlength.le, fun _ => trivial⟩
  | pointer target =>
    have hdigit := hs.startsWithoutDigit hrest
    obtain ⟨rfl, hlength⟩ := h.scalar_exact (plan_encode_pointer hnext hdigit target)
    exact ⟨rfl, hlength.le, fun _ => trivial⟩
  | array count element ih =>
    have hq := h.of_type
    rw [plan_encode_array] at hq
    by_cases hpos : scannedCount count ≤ 0
    · rw [if_pos hpos] at hq
      exact hq.elim
    rw [if_neg hpos] at hq
    obtain ⟨n, hn⟩ : ∃ n, (scannedCount count).toNat = n + 1 :=
      ⟨(scannedCount count).toNat - 1, by omega⟩
    have hcount := scannedCount_le count
    obtain ⟨q, last, hlast, hlength⟩ := (hn ▸ hq.2).last_element
    have hle' : surplus (']' :: r) ≤ surplus (']' :: s) := by
      rwa [surplus_cons (by decide) (by decide), surplus_cons (by decide) (by decide)]
    obtain ⟨htext, hle, hreadable⟩ := ih hlast (.close (by decide) hs)
      (hr.trans (List.suffix_cons _ _)) hle'
    have hkinds : (Encoding.array count element).kinds.length = count * element.kinds.length := by
      simp [Encoding.kinds]
    refine ⟨(List.cons.inj htext).2, ?_, ?_⟩
    · rw [hlength, hkinds]
      exact Nat.mul_le_mul (by omega) hle
    · intro heq
      rw [hlength, hkinds] at heq
      obtain ⟨hn', hl⟩ := factors_eq (by omega) hle (Nat.succ_pos n) heq
      exact ⟨by omega, hn'.imp (by omega) List.eq_nil_of_length_eq_zero, hreadable hl⟩
  | struct tag members ih =>
    have hq := h.of_type
    rw [plan_encode_struct] at hq
    exact hq.members_exact hnext hrest ih hs hr hle
  | union tag members ih =>
    have hq := h.of_type
    rw [plan_encode_union] at hq
    cases members with
    | nil =>
      rcases hq with ⟨hm, rfl⟩ | ⟨hm, _⟩
      · exact ⟨(List.cons.inj hm).2.symm, Nat.zero_le _, fun _ => trivial⟩
      · exact absurd rfl hm
    | cons t ts =>
      simp only [Encoding.encodeAll, List.append_assoc] at hq
      rcases hq with ⟨hm, _⟩ | ⟨_, skipped, hskipped, hmember⟩
      · exact absurd (congrArg List.head? hm) (head_ne t (by decide))
      obtain ⟨hrs, hclose, hlength, hreadable⟩ :=
        hmember.union_exact (ih t List.mem_cons_self) hskipped hs hr hle
      exact ⟨hrs, hlength, fun heq => ⟨hreadable heq, hclose⟩⟩
  | nil t ht => simp at ht
  | cons t ts iht ihts t' ht' =>
    rcases List.mem_cons.mp ht' with rfl | ht'
    · exact iht
    · exact ihts t' ht'

end Exact

/-- `_C_CONST`, `_C_IN`, `_C_INOUT`, `_C_OUT`, `_C_BYCOPY`, `_C_BYREF` and `_C_ONEWAY`. `@encode`
writes them in front of the whole type only. -/
inductive Qualifier
  | const
  | in
  | inout
  | out
  | bycopy
  | byref
  | oneway
  deriving DecidableEq, Repr

/-- The character of a qualifier. -/
def Qualifier.code : Qualifier → Char
  | const => 'r'
  | «in» => 'n'
  | inout => 'N'
  | out => 'o'
  | bycopy => 'O'
  | byref => 'R'
  | oneway => 'V'

theorem Qualifier.valueless (q : Qualifier) : Valueless q.code where
  kind kind := by
    rcases kind with s | _
    · cases q <;> cases s <;> decide
    · cases q <;> decide
  bracket := by cases q <;> decide
  broken := by cases q <;> decide

/-- The text of a type with its qualifiers. -/
def encodeQualified (qualifiers : List Qualifier) (t : Encoding) : List Char :=
  qualifiers.map Qualifier.code ++ t.encode

/-- `_MulleObjCDescribeMemory` reads the values where the platform has them, nothing outside of
the block, and leaves the addresses behind the type. -/
def FollowsLayout (nextType : List Char → List Char) (printer : Printer) (data : Data)
    (qualifiers : List Qualifier) (t : Encoding) (rest sep : List Char) : Prop :=
  (∃ output, describeData nextType printer data (encodeQualified qualifiers t ++ rest) sep =
      some (.done (data.bytes + t.size) (some rest) output (t.abiReads data.bytes))) ∧
    ∀ r ∈ t.abiReads data.bytes, data.bytes ≤ r.address ∧ r.last ≤ data.bytes + data.length

/-- A qualifier is described as nothing, and the type is left behind it. -/
theorem not_decodes_qualified {nextType : List Char → List Char} {printer : Printer}
    {sentinel p p' : ℕ} {q : Qualifier} {qualifiers : List Qualifier} {t : Encoding}
    {rest : List Char} {reads : List Read} :
    ¬Decodes nextType printer sentinel
      (.type (encodeQualified (q :: qualifiers) t ++ rest)) p reads rest p' := by
  intro h
  obtain ⟨_, hrest⟩ := h.spans.unique
    (.valueless q.valueless (encodeQualified qualifiers t ++ rest))
  have hlength := congrArg List.length hrest
  obtain ⟨c, s, ht, _⟩ := head_encode t
  simp only [encodeQualified, ht, List.length_append, List.length_map, List.length_cons] at hlength
  omega

/-- The descriptions that follow the layout are those of types without a qualifier, that the
cursor gets through, and whose values are packed: there is no padding but what the alignment of
the next value makes. And the values can be printed. -/
theorem followsLayout_iff {nextType : List Char → List Char} {printer : Printer}
    {data : Data} {qualifiers : List Qualifier} {t : Encoding} {rest sep : List Char}
    (hnext : SkipsTargets nextType) (hrest : StartsWithoutDigit rest) (hbytes : data.bytes ≠ 0)
    (hlength : t.size ≤ data.length) (hend : data.bytes + data.length < 2 ^ 64) :
    FollowsLayout nextType printer data qualifiers t rest sep ↔
      qualifiers = [] ∧ t.Readable ∧
        Packed data.bytes (t.abiReads data.bytes) (data.bytes + t.size) ∧
        ∀ r ∈ t.abiReads data.bytes, (printer.text r).isSome = true := by
  have hsentinel : data.sentinel = data.bytes + data.length := Nat.mod_eq_of_lt hend
  rw [FollowsLayout, describeData_eq_done_iff hnext.pointer]
  constructor
  · rintro ⟨hdecodes, _⟩
    cases qualifiers with
    | cons q qualifiers => exact absurd hdecodes not_decodes_qualified
    | nil =>
      have hkinds := congrArg List.length (t.map_kind_abiReads data.bytes)
      rw [List.length_map] at hkinds
      obtain ⟨_, _, hreadable⟩ :=
        readsExactly hnext hrest t hdecodes .rest (List.suffix_refl rest) (Int.le_refl _)
      exact ⟨rfl, hreadable hkinds, hdecodes.packed, fun r hr => (hdecodes.printed r hr).2⟩
  · rintro ⟨rfl, hreadable, hpacked, hprinted⟩
    have hspans := spansType hnext t hreadable hrest
    constructor
    · refine hspans.decodes hpacked (t.map_kind_abiReads _) (fun r hr => ⟨?_, hprinted r hr⟩) hbytes
      have hmem := hpacked.mem r hr
      omega
    · intro r hr
      have hmem := hpacked.mem r hr
      exact ⟨hmem.1, by omega⟩

theorem skipsTargets_skipType : SkipsTargets skipType where
  pointer := skipType_suffix
  target target rest _ := skipType_encode_opaque target rest
  encoding t rest _ := skipType_encode t rest

/-- `struct abc { int i; char c; double d;}` -/
def abc : Encoding :=
  .struct ⟨"abc".toList, by simp [Enum.isIdentifierChar]⟩
    [.scalar .int, .scalar .char, .scalar .double]

/-- The padding in front of the `double` is its own. -/
theorem abc_followsLayout :
    FollowsLayout skipType (.letter 'x') ⟨16, 16⟩ [] abc [] [] := by
  refine (followsLayout_iff skipsTargets_skipType (by simp [StartsWithoutDigit]) (by decide)
    (by decide) (by decide)).mpr ⟨rfl, ?_, ?_, ?_⟩
  · exact ⟨trivial, trivial, trivial, trivial⟩
  · exact ⟨rfl, rfl, rfl, rfl⟩
  · have hreads : abc.abiReads 16 =
        [⟨.scalar .int, 16⟩, ⟨.scalar .char, 20⟩, ⟨.scalar .double, 24⟩] := by decide
    rw [hreads]
    decide

/-- `struct outer { char c; struct { char c; int i;} inner;}` -/
def outer : Encoding :=
  .struct ⟨"outer".toList, by simp [Enum.isIdentifierChar]⟩
    [.scalar .char,
      .struct ⟨"inner".toList, by simp [Enum.isIdentifierChar]⟩ [.scalar .char, .scalar .int]]

/-- `struct two { _Bool a; _Bool b;}` -/
def two : Encoding :=
  .struct ⟨"two".toList, by simp [Enum.isIdentifierChar]⟩ [.scalar .bool, .scalar .bool]

/-- The first `char` of the inner struct is read from the padding in front of it. A `_Bool` is
read as an `int`, which is larger than the block. Of a `const char *` only the `const` is read. -/
theorem outer_not_followsLayout :
    ¬FollowsLayout skipType (.letter 'x') ⟨16, 12⟩ [] outer [] [] ∧
      ¬FollowsLayout skipType (.letter 'x') ⟨16, 2⟩ [] two [] [] ∧
      ¬FollowsLayout skipType (.letter 'x') ⟨16, 8⟩ [.const] (.scalar .charPtr) [] [] := by
  refine ⟨?_, ?_, ?_⟩
  · rintro ⟨⟨output, h⟩, _⟩
    have hreads : outer.abiReads 16 =
        [⟨.scalar .char, 16⟩, ⟨.scalar .char, 20⟩, ⟨.scalar .int, 24⟩] := by decide
    have hdescribed : describeData skipType (.letter 'x') ⟨16, 12⟩
        (encodeQualified [] outer ++ []) [] =
        some (.done 24 (some []) "(struct outer) { x(struct inner) , { x, x } }".toList
          [⟨.scalar .char, 16⟩, ⟨.scalar .char, 17⟩, ⟨.scalar .int, 20⟩]) := by decide
    rw [hdescribed, hreads] at h
    simp at h
  · rintro ⟨⟨output, h⟩, _⟩
    have hdescribed : describeData skipType (.letter 'x') ⟨16, 2⟩
        (encodeQualified [] two ++ []) [] = some (.null "(struct two) \x7b".toList) := by decide
    rw [hdescribed] at h
    simp at h
  · rintro ⟨⟨output, h⟩, _⟩
    have hdescribed : describeData skipType (.letter 'x') ⟨16, 8⟩
        (encodeQualified [.const] (.scalar .charPtr) ++ []) [] =
        some (.done 16 (some ['*']) [] []) := by decide
    rw [hdescribed] at h
    simp at h

end MulleObjC.Describe
