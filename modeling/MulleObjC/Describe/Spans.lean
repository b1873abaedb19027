import MulleObjC.Describe.Decodes

/-!
# Types at the front of a text

Which values a text asks for, and where the type at its front ends, does not depend on memory.
`_MulleObjCDescribeMemory` comes to the end of the type if the values are in the block, one behind
the other, and can be printed.
-/

namespace MulleObjC.Describe

/-- What is left of a text behind a value. -/
def Kind.behind (nextType : List Char → List Char) : Kind → List Char → List Char
  | scalar _, s => s
  | pointer, s => nextType ('^' :: s)

/-- A type at the front of a text, with the values it asks for and the text behind it. Behind the
first member of a union everything up to the next closing bracket belongs to it. -/
inductive Spans (nextType : List Char → List Char) : Task → List Kind → List Char → Prop
  | value {c : Char} (kind : Kind) (hc : c = kind.code) (s : List Char) :
      Spans nextType (.type (c :: s)) [kind] (kind.behind nextType s)
  | valueless {c : Char} (hc : Valueless c) (r : List Char) :
      Spans nextType (.type (c :: r)) [] r
  | struct {s tag m r : List Char} {kinds : List Kind} (htag : '=' ∉ tag)
      (hs : s = tag ++ '=' :: m) (hmembers : Spans nextType (.members m) kinds r) :
      Spans nextType (.type ('{' :: s)) kinds r
  | emptyUnion {s tag r : List Char} (htag : '=' ∉ tag) (hs : s = tag ++ '=' :: ')' :: r) :
      Spans nextType (.type ('(' :: s)) [] r
  | union {s tag m skipped r : List Char} {kinds : List Kind} (htag : '=' ∉ tag)
      (hs : s = tag ++ '=' :: m) (hm : m.head? ≠ some ')') (hskipped : ')' ∉ skipped)
      (hmember : Spans nextType (.type m) kinds (skipped ++ ')' :: r)) :
      Spans nextType (.type ('(' :: s)) kinds r
  | array {s r : List Char} {kinds : List Kind} (hs : 0 < atoi s)
      (helements : Spans nextType (.elements (atoi s).toNat (s.dropWhile Char.isDigit)) kinds
        (']' :: r)) :
      Spans nextType (.type ('[' :: s)) kinds r
  | noMember (r : List Char) : Spans nextType (.members ('}' :: r)) [] r
  | member {m m' r : List Char} {kinds kinds' : List Kind} (hm : m.head? ≠ some '}')
      (hfirst : Spans nextType (.type m) kinds m')
      (hrest : Spans nextType (.members m') kinds' r) :
      Spans nextType (.members m) (kinds ++ kinds') r
  | elements {n : ℕ} {m r : List Char} {kinds : List Kind} (hn : n ≠ 0)
      (helement : Spans nextType (.type m) kinds r) :
      Spans nextType (.elements n m) (List.replicate n kinds).flatten r

section Unique

variable {nextType : List Char → List Char} {t : Task} {kinds kinds' : List Kind}
  {r r' : List Char}

theorem Kind.code_injective : Function.Injective Kind.code := by
  rintro (s | _) (s' | _) h
  · have hsome := scalarOfCode_eq_some_iff.mpr (show s.code = s'.code from h)
    rw [scalarOfCode_eq_some_iff.mpr rfl] at hsome
    rw [Option.some.inj hsome]
  · cases s <;> cases h
  · cases s' <;> cases h
  · rfl

theorem Kind.code_notMem (kind : Kind) : kind.code ∉ ['{', '(', '['] := by
  rcases kind with s | _
  · cases s <;> decide
  · decide

theorem tag_unique {tag tag' m m' : List Char} (htag : '=' ∉ tag) (htag' : '=' ∉ tag')
    (h : tag ++ '=' :: m = tag' ++ '=' :: m') : m = m' := by
  have hscan := congrArg (scan '=') h
  rw [scan_append htag, scan_append htag', Option.some.injEq, Prod.mk.injEq] at hscan
  exact hscan.2

/-- A text begins with one type only. -/
theorem Spans.unique (h : Spans nextType t kinds r) (h' : Spans nextType t kinds' r') :
    kinds = kinds' ∧ r = r' := by
  induction h generalizing kinds' r' with
  | value kind hc s =>
    cases h' with
    | value kind' hc' =>
      obtain rfl := Kind.code_injective (hc.symm.trans hc')
      exact ⟨rfl, rfl⟩
    | valueless hc' => exact absurd hc (hc'.kind kind)
    | struct | emptyUnion | union | array => exact absurd (by simp [← hc]) kind.code_notMem
  | valueless hc r =>
    cases h' with
    | value kind hc' => exact absurd hc' (hc.kind kind)
    | valueless => exact ⟨rfl, rfl⟩
    | struct | emptyUnion | union | array => exact absurd (by simp) hc.bracket
  | struct htag hs hmembers ih =>
    cases h' with
    | value kind hc => exact absurd (by simp [← hc]) kind.code_notMem
    | valueless hc => exact absurd (by simp) hc.bracket
    | struct htag' hs' hmembers' =>
      obtain rfl := tag_unique htag htag' (hs.symm.trans hs')
      exact ih hmembers'
  | emptyUnion htag hs =>
    cases h' with
    | value kind hc => exact absurd (by simp [← hc]) kind.code_notMem
    | valueless hc => exact absurd (by simp) hc.bracket
    | emptyUnion htag' hs' =>
      exact ⟨rfl, (List.cons.inj (tag_unique htag htag' (hs.symm.trans hs'))).2⟩
    | union htag' hs' hm' =>
      obtain rfl := tag_unique htag htag' (hs.symm.trans hs')
      exact absurd rfl hm'
  | union htag hs hm hskipped hmember ih =>
    cases h' with
    | value kind hc => exact absurd (by simp [← hc]) kind.code_notMem
    | valueless hc => exact absurd (by simp) hc.bracket
    | emptyUnion htag' hs' =>
      obtain rfl := tag_unique htag htag' (hs.symm.trans hs')
      exact absurd rfl hm
    | union htag' hs' _ hskipped' hmember' =>
      obtain rfl := tag_unique htag htag' (hs.symm.trans hs')
      obtain ⟨hkinds, hrest⟩ := ih hmember'
      have hscan := congrArg (scan ')') hrest
      rw [scan_append hskipped, scan_append hskipped', Option.some.injEq, Prod.mk.injEq] at hscan
      exact ⟨hkinds, hscan.2⟩
  | array hs helements ih =>
    cases h' with
    | value kind hc => exact absurd (by simp [← hc]) kind.code_notMem
    | valueless hc => exact absurd (by simp) hc.bracket
    | array _ helements' =>
      obtain ⟨hkinds, hrest⟩ := ih helements'
      exact ⟨hkinds, (List.cons.inj hrest).2⟩
  | noMember r =>
    cases h' with
    | noMember => exact ⟨rfl, rfl⟩
    | member hm => exact absurd rfl hm
  | member hm hfirst hrest ihfirst ihrest =>
    cases h' with
    | noMember => exact absurd rfl hm
    | member _ hfirst' hrest' =>
      obtain ⟨rfl, rfl⟩ := ihfirst hfirst'
      obtain ⟨rfl, rfl⟩ := ihrest hrest'
      exact ⟨rfl, rfl⟩
  | elements hn helement ih =>
    cases h' with
    | elements _ helement' =>
      obtain ⟨rfl, rfl⟩ := ih helement'
      exact ⟨rfl, rfl⟩

end Unique

/-- Each value is at the first aligned address behind the one before. The last ends at `e`. -/
def Packed : ℕ → List Read → ℕ → Prop
  | p, [], e => p = e
  | p, r :: rs, e => r.address = alignUp p r.kind.size ∧ Packed r.last rs e

theorem Kind.size_pos (k : Kind) : 0 < k.size := by
  rcases k with s | _
  · cases s <;> decide
  · decide

section Packed

variable {p q e : ℕ} {rs rs' : List Read}

theorem packed_append : Packed p (rs ++ rs') e ↔ ∃ q, Packed p rs q ∧ Packed q rs' e := by
  induction rs generalizing p with
  | nil => simp [Packed]
  | cons r rs ih => simp [Packed, ih, and_assoc]

/-- Packed values are in one piece of memory. -/
theorem Packed.le (h : Packed p rs e) : p ≤ e := by
  induction rs generalizing p with
  | nil => exact h.le
  | cons r rs ih =>
    have hle := alignUp.le (n := p) r.kind.size_pos
    have hlast := ih h.2
    rw [Read.last, h.1] at hlast
    omega

theorem Packed.mem (h : Packed p rs e) : ∀ r ∈ rs, p ≤ r.address ∧ r.last ≤ e := by
  induction rs generalizing p with
  | nil => simp
  | cons r rs ih =>
    have hle := alignUp.le (n := p) r.kind.size_pos
    have hlast : r.last = r.address + r.kind.size := rfl
    have haddress := h.1
    intro r' hr'
    rcases List.mem_cons.mp hr' with rfl | hr'
    · exact ⟨by omega, h.2.le⟩
    · have hmem := ih h.2 r' hr'
      exact ⟨by omega, hmem.2⟩

end Packed

section Decodes

variable {nextType : List Char → List Char} {printer : Printer} {sentinel p p' : ℕ} {t : Task}
  {kinds : List Kind} {reads : List Read} {s m r : List Char}

variable (printer sentinel) in
/-- A value that ends in front of the sentinel can be printed. -/
def Printed (r : Read) : Prop := r.last ≤ sentinel ∧ (printer.text r).isSome = true

/-- What a scalar leaves behind. -/
theorem of_planScalar {kind : Kind} {rest : Option (List Char)} {text : Option (List Char)}
    (h : planScalar printer sentinel kind p s = .leaf p' rest text reads) :
    reads.map Read.kind = [kind] ∧ rest = some s ∧ Packed p reads p' ∧
      ∀ r ∈ reads, Printed printer sentinel r := by
  obtain ⟨hfits, rfl, rfl, ⟨_, _, htext⟩, rfl⟩ := planScalar_eq_leaf_iff.mp h
  refine ⟨rfl, rfl, ⟨rfl, rfl⟩, ?_⟩
  intro r hr
  obtain rfl := List.mem_singleton.mp hr
  exact ⟨hfits, by rw [htext]; rfl⟩

/-- What is described without a call begins the text, and its values are packed and printed. -/
theorem of_plan_leaf {text : Option (List Char)}
    (h : plan nextType printer sentinel p s = .leaf p' (some r) text reads) :
    Spans nextType (.type s) (reads.map Read.kind) r ∧ Packed p reads p' ∧
      ∀ r ∈ reads, Printed printer sentinel r := by
  cases s with
  | nil => simp [plan] at h
  | cons c s =>
    rcases plan_cons_cases nextType printer sentinel p c s with
      ⟨scalar, hcode, hc⟩ | ⟨text', hc⟩ | ⟨hvalueless, text', hc⟩ | ⟨rfl, hc⟩ | ⟨_, hc⟩ |
        ⟨_, hc⟩ | ⟨_, hc⟩
    · obtain ⟨hkinds, hr, hpacked, hprinted⟩ := of_planScalar (hc.symm.trans h)
      obtain rfl := Option.some.inj hr
      rw [hkinds]
      exact ⟨.value (.scalar scalar) (scalarOfCode_eq_some_iff.mp hcode) r, hpacked, hprinted⟩
    · simp [hc] at h
    · obtain ⟨rfl, hr, _, rfl⟩ := Plan.leaf.inj (hc.symm.trans h)
      obtain rfl := Option.some.inj hr
      exact ⟨.valueless hvalueless s, rfl, by simp⟩
    · obtain ⟨hkinds, hr, hpacked, hprinted⟩ := of_planScalar (hc.symm.trans h)
      obtain rfl := Option.some.inj hr
      rw [hkinds]
      exact ⟨.value .pointer rfl s, hpacked, hprinted⟩
    · cases hscan : scan '=' s <;> simp [hc, hscan] at h
    · cases hscan : scan '=' s <;> simp [hc, hscan] at h
    · rw [hc] at h
      split at h <;> simp at h

/-- What is read begins the text. -/
theorem Decodes.spans (h : Decodes nextType printer sentinel t p reads r p') :
    Spans nextType t (reads.map Read.kind) r := by
  induction h with
  | leaf hplan => exact (of_plan_leaf hplan).1
  | struct htag hmembers ih => exact .struct htag rfl ih
  | emptyUnion htag => exact .emptyUnion htag rfl
  | union htag hm hskipped hp hmember ih => exact .union htag rfl hm hskipped ih
  | array hs helements ih => exact .array hs ih
  | noMember => exact .noMember _
  | member hm hfirst hp hrest ihfirst ihrest =>
    rw [List.map_append]
    exact .member hm ihfirst ihrest
  | element hfirst hp ih => simpa using Spans.elements Nat.one_ne_zero ih
  | @elements n m r r' p p' p'' reads reads' hfirst hp hrest ihfirst ihrest =>
    generalize hkinds : reads'.map Read.kind = kinds' at ihrest
    cases ihrest with
    | elements _ helement =>
      obtain ⟨hkinds', rfl⟩ := helement.unique ihfirst
      have hall := Spans.elements (Nat.succ_ne_zero (n + 1)) helement
      rwa [List.replicate_succ, List.flatten_cons, ← hkinds, hkinds', ← List.map_append] at hall

/-- What is read is packed. -/
theorem Decodes.packed (h : Decodes nextType printer sentinel t p reads r p') :
    Packed p reads p' := by
  induction h with
  | leaf hplan => exact (of_plan_leaf hplan).2.1
  | struct htag hmembers ih => exact ih
  | emptyUnion htag => exact rfl
  | union htag hm hskipped hp hmember ih => exact ih
  | array hs helements ih => exact ih
  | noMember => exact rfl
  | member hm hfirst hp hrest ihfirst ihrest => exact packed_append.mpr ⟨_, ihfirst, ihrest⟩
  | element hfirst hp ih => exact ih
  | elements hfirst hp hrest ihfirst ihrest => exact packed_append.mpr ⟨_, ihfirst, ihrest⟩

/-- What is read is printed. -/
theorem Decodes.printed (h : Decodes nextType printer sentinel t p reads r p') :
    ∀ r ∈ reads, Printed printer sentinel r := by
  induction h with
  | leaf hplan => exact (of_plan_leaf hplan).2.2
  | struct htag hmembers ih => exact ih
  | emptyUnion htag => simp
  | union htag hm hskipped hp hmember ih => exact ih
  | array hs helements ih => exact ih
  | noMember => simp
  | member hm hfirst hp hrest ihfirst ihrest => exact List.forall_mem_append.mpr ⟨ihfirst, ihrest⟩
  | element hfirst hp ih => exact ih
  | elements hfirst hp hrest ihfirst ihrest =>
    exact List.forall_mem_append.mpr ⟨ihfirst, ihrest⟩

/-- From `NULL` nothing is read, and the address stays `NULL`. -/
theorem Decodes.ne_zero (h : Decodes nextType printer sentinel t p reads r p') (hp : p' ≠ 0) :
    p ≠ 0 := by
  rintro rfl
  have hpacked := h.packed
  cases reads with
  | nil => exact hp hpacked.symm
  | cons r rs =>
    have hzero : r.address = 0 := by
      rw [hpacked.1]
      exact Nat.le_zero.mp (alignUp.le_of_dvd r.kind.size_pos (Nat.dvd_zero _) (Nat.le_refl 0))
    have hprinted := (h.printed r List.mem_cons_self).2
    rw [printer.text_null r hzero] at hprinted
    contradiction

theorem plan_value {kind : Kind} : plan nextType printer sentinel p (kind.code :: s) =
    planScalar printer sentinel kind p (kind.behind nextType s) := by
  cases kind with
  | scalar scalar => exact plan_scalar scalar s
  | pointer => rfl

theorem plan_valueless {c : Char} (hc : Valueless c) :
    ∃ text, plan nextType printer sentinel p (c :: s) = .leaf p (some s) text [] := by
  have hscalar : scalarOfCode c = none := by
    by_contra hsome
    obtain ⟨scalar, hscalar⟩ := Option.ne_none_iff_exists'.mp hsome
    exact hc.kind (.scalar scalar) (scalarOfCode_eq_some_iff.mp hscalar)
  have hpointer : c ≠ '^' := hc.kind .pointer
  have hbracket := hc.bracket
  simp only [List.mem_cons, List.not_mem_nil, or_false, not_or] at hbracket
  obtain ⟨hstruct, hunion, harray⟩ := hbracket
  rw [plan, hscalar]
  dsimp only
  rw [if_neg hc.broken]
  by_cases hvoid : c = 'v'
  · exact ⟨_, if_pos hvoid⟩
  · rw [if_neg hvoid, if_neg hpointer, if_neg hstruct, if_neg hunion, if_neg harray]
    exact ⟨none, rfl⟩

/-- Elements that are read one by one. -/
theorem Decodes.of_repeated {n : ℕ}
    (htype : ∀ {p p' reads}, Packed p reads p' → reads.map Read.kind = kinds →
      (∀ r ∈ reads, Printed printer sentinel r) → p ≠ 0 →
      Decodes nextType printer sentinel (.type m) p reads r p')
    (hpacked : Packed p reads p')
    (hkinds : reads.map Read.kind = (List.replicate (n + 1) kinds).flatten)
    (hprinted : ∀ r ∈ reads, Printed printer sentinel r) (hp : p ≠ 0) :
    Decodes nextType printer sentinel (.elements (n + 1) m) p reads r p' := by
  induction n generalizing p reads with
  | zero =>
    have hle := hpacked.le
    exact .element (htype hpacked (by simpa using hkinds) hprinted hp) (by omega)
  | succ n ih =>
    rw [List.replicate_succ, List.flatten_cons, List.map_eq_append_iff] at hkinds
    obtain ⟨first, others, rfl, hfirst, hothers⟩ := hkinds
    obtain ⟨q, hpacked, hpacked'⟩ := packed_append.mp hpacked
    obtain ⟨hprinted, hprinted'⟩ := List.forall_mem_append.mp hprinted
    have hle := hpacked.le
    exact .elements (htype hpacked hfirst hprinted hp) (by omega)
      (ih hpacked' hothers hprinted' (by omega))

/-- What begins the text is read, if its values are packed and printed. -/
theorem Spans.decodes (h : Spans nextType t kinds r) (hpacked : Packed p reads p')
    (hkinds : reads.map Read.kind = kinds) (hprinted : ∀ r ∈ reads, Printed printer sentinel r)
    (hp : p ≠ 0) : Decodes nextType printer sentinel t p reads r p' := by
  induction h generalizing p p' reads with
  | value kind hc s =>
    subst hc
    obtain ⟨⟨kind, a⟩, rfl, rfl⟩ := List.map_eq_singleton_iff.mp hkinds
    obtain ⟨haddress, hlast⟩ := hpacked
    obtain rfl : a = alignUp p kind.size := haddress
    obtain ⟨hfits, hsome⟩ := hprinted _ List.mem_cons_self
    obtain ⟨text, htext⟩ := Option.isSome_iff_exists.mp hsome
    exact .leaf (plan_value.trans
      (planScalar_eq_leaf_iff.mpr ⟨hfits, hlast.symm, rfl, ⟨text, rfl, htext⟩, rfl⟩))
  | valueless hc r =>
    obtain rfl := List.map_eq_nil_iff.mp hkinds
    obtain rfl : p = p' := hpacked
    obtain ⟨text, hplan⟩ := plan_valueless hc
    exact .leaf hplan
  | struct htag hs hmembers ih =>
    subst hs
    exact .struct htag (ih hpacked hkinds hprinted hp)
  | emptyUnion htag hs =>
    subst hs
    obtain rfl := List.map_eq_nil_iff.mp hkinds
    obtain rfl : p = p' := hpacked
    exact .emptyUnion htag
  | union htag hs hm hskipped hmember ih =>
    subst hs
    have hle := hpacked.le
    exact .union htag hm hskipped (by omega) (ih hpacked hkinds hprinted hp)
  | array hs helements ih => exact .array hs (ih hpacked hkinds hprinted hp)
  | noMember r =>
    obtain rfl := List.map_eq_nil_iff.mp hkinds
    obtain rfl : p = p' := hpacked
    exact .noMember
  | member hm hfirst hrest ihfirst ihrest =>
    obtain ⟨first, others, rfl, hfirst, hothers⟩ := List.map_eq_append_iff.mp hkinds
    obtain ⟨q, hpacked, hpacked'⟩ := packed_append.mp hpacked
    obtain ⟨hprinted, hprinted'⟩ := List.forall_mem_append.mp hprinted
    have hle := hpacked.le
    exact .member hm (ihfirst hpacked hfirst hprinted hp) (by omega)
      (ihrest hpacked' hothers hprinted' (by omega))
  | @elements n m r kinds hn helement ih =>
    obtain ⟨n, rfl⟩ := Nat.exists_eq_succ_of_ne_zero hn
    exact .of_repeated ih hpacked hkinds hprinted hp

end Decodes

end MulleObjC.Describe
