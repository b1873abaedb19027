import MulleObjC.Describe.Memory

/-!
# What can be described

The calls that do not return `NULL`, as a relation between the front of a text and what is left
of it. `_MulleObjCDescribeMemory` comes to the same values and to the same rest.
-/

namespace MulleObjC.Describe

/-- What is described: a type, the members up to the end of a struct, or some elements of an
array. -/
inductive Task
  | type (s : List Char)
  | members (s : List Char)
  | elements (n : ℕ) (s : List Char)

/-- The text that is described. -/
def Task.text : Task → List Char
  | type s | members s | elements _ s => s

section Scan

variable {c : Char} {s front back : List Char}

theorem scan_append (hfront : c ∉ front) : scan c (front ++ c :: back) = some (front, back) := by
  induction front with
  | nil => simp [scan]
  | cons d front ih =>
    obtain ⟨hd, hfront⟩ := not_or.mp fun h => hfront (List.mem_cons.mpr h)
    rw [List.cons_append, scan, if_neg (Ne.symm hd), ih hfront, Option.map_some]

theorem scan_eq_some_iff : scan c s = some (front, back) ↔ s = front ++ c :: back ∧ c ∉ front := by
  constructor
  · intro h
    induction s generalizing front with
    | nil => simp [scan] at h
    | cons d s ih =>
      rw [scan] at h
      split at h
      next hd =>
        obtain ⟨rfl, rfl⟩ := Prod.mk.inj (Option.some.inj h)
        subst hd
        simp
      next hd =>
        obtain ⟨⟨front', _⟩, hscan, hpair⟩ := Option.map_eq_some_iff.mp h
        obtain ⟨rfl, rfl⟩ := Prod.mk.inj hpair
        obtain ⟨rfl, hmem⟩ := ih hscan
        refine ⟨rfl, ?_⟩
        rw [List.mem_cons, not_or]
        exact ⟨Ne.symm hd, hmem⟩
  · rintro ⟨rfl, hfront⟩
    exact scan_append hfront

theorem scan_eq_none_iff : scan c s = none ↔ c ∉ s := by
  constructor
  · intro h hmem
    obtain ⟨front, back, rfl, hfront⟩ := List.eq_append_cons_of_mem hmem
    rw [scan_append hfront] at h
    simp at h
  · intro h
    rw [Option.eq_none_iff_forall_ne_some]
    rintro ⟨front, back⟩ hscan
    obtain ⟨rfl, _⟩ := scan_eq_some_iff.mp hscan
    simp at h

end Scan

section Plan

variable {nextType : List Char → List Char} {printer : Printer} {sentinel p p' : ℕ}
  {s rest tag members : List Char} {text : Option (List Char)} {reads : List Read}

/-- A scalar that fits is read, with its alignment, if it can be printed. -/
theorem planScalar_eq_leaf_iff {kind : Kind} {rest' : Option (List Char)} :
    planScalar printer sentinel kind p rest = .leaf p' rest' text reads ↔
      alignUp p kind.size + kind.size ≤ sentinel ∧ p' = alignUp p kind.size + kind.size ∧
        rest' = some rest ∧
        (∃ t, text = some t ∧ printer.text ⟨kind, alignUp p kind.size⟩ = some t) ∧
        reads = [⟨kind, alignUp p kind.size⟩] := by
  unfold planScalar getScalarvalue
  dsimp only
  by_cases hfits : alignUp p kind.size + kind.size ≤ sentinel
  · rw [if_pos hfits]
    dsimp only
    cases hprint : printer.text ⟨kind, alignUp p kind.size⟩ with
    | none => simp
    | some t =>
      simp only [Plan.leaf.injEq, Read.last, hfits, true_and]
      constructor
      · rintro ⟨rfl, rfl, rfl, rfl⟩
        exact ⟨rfl, rfl, ⟨t, rfl, rfl⟩, rfl⟩
      · rintro ⟨rfl, rfl, ⟨_, rfl, ht⟩, rfl⟩
        exact ⟨rfl, rfl, congrArg some (Option.some.inj ht), rfl⟩
  · rw [if_neg hfits]
    simp [hfits]

theorem scalarOfCode_eq_some_iff {c : Char} {scalar : Scalar} :
    scalarOfCode c = some scalar ↔ c = scalar.code := by
  constructor
  · intro h
    unfold scalarOfCode at h
    split at h <;> cases h <;> rfl
  · rintro rfl
    cases scalar <;> rfl

/-- A character that has no value: `_C_VOID`, and every character without a case. -/
structure Valueless (c : Char) : Prop where
  kind : ∀ kind : Kind, c ≠ kind.code
  bracket : c ∉ ['{', '(', '[']
  broken : c ∉ ['%', '?', '!', 'b', ']', '}', ')']

/-- What the `switch( *type)` does with a character, in the order of its cases. -/
theorem plan_cons_cases (nextType : List Char → List Char) (printer : Printer)
    (sentinel p : ℕ) (c : Char) (s : List Char) :
    (∃ scalar, scalarOfCode c = some scalar ∧
      plan nextType printer sentinel p (c :: s) =
        planScalar printer sentinel (.scalar scalar) p s) ∨
    (∃ text, plan nextType printer sentinel p (c :: s) = .null (some text)) ∨
    (Valueless c ∧ ∃ text, plan nextType printer sentinel p (c :: s) = .leaf p (some s) text []) ∨
    (c = '^' ∧ plan nextType printer sentinel p (c :: s) =
      planScalar printer sentinel .pointer p (nextType (c :: s))) ∨
    (c = '{' ∧ plan nextType printer sentinel p (c :: s) =
      (scan '=' s).elim .undefined fun r => .struct r.1 r.2) ∨
    (c = '(' ∧ plan nextType printer sentinel p (c :: s) =
      (scan '=' s).elim .undefined fun r => .union r.1 r.2) ∨
    (c = '[' ∧ plan nextType printer sentinel p (c :: s) =
      if atoi s ≤ 0 then .undefined else .array (atoi s).toNat (s.dropWhile Char.isDigit)) := by
  rw [plan]
  cases hscalar : scalarOfCode c with
  | some scalar => exact .inl ⟨scalar, rfl, rfl⟩
  | none =>
    right
    dsimp only
    by_cases hnull : c ∈ ['%', '?', '!', 'b', ']', '}', ')']
    · exact .inl ⟨_, if_pos hnull⟩
    rw [if_neg hnull]
    have hvalueless (hpointer : c ≠ '^') (hbracket : c ∉ ['{', '(', '[']) : Valueless c := by
      refine ⟨?_, hbracket, hnull⟩
      rintro (scalar | _)
      · intro hcode
        rw [scalarOfCode_eq_some_iff.mpr hcode] at hscalar
        contradiction
      · exact hpointer
    by_cases hvoid : c = 'v'
    · refine .inr (.inl ⟨hvalueless ?_ ?_, _, if_pos hvoid⟩)
      · rw [hvoid]
        decide
      · rw [hvoid]
        decide
    rw [if_neg hvoid]
    by_cases hpointer : c = '^'
    · exact .inr (.inr (.inl ⟨hpointer, if_pos hpointer⟩))
    rw [if_neg hpointer]
    by_cases hstruct : c = '{'
    · refine .inr (.inr (.inr (.inl ⟨hstruct, ?_⟩)))
      rw [if_pos hstruct]
      cases scan '=' s <;> rfl
    rw [if_neg hstruct]
    by_cases hunion : c = '('
    · refine .inr (.inr (.inr (.inr (.inl ⟨hunion, ?_⟩))))
      rw [if_pos hunion]
      cases scan '=' s <;> rfl
    rw [if_neg hunion]
    by_cases harray : c = '['
    · exact .inr (.inr (.inr (.inr (.inr ⟨harray, if_pos harray⟩))))
    · exact .inr (.inl ⟨hvalueless hpointer (by simp [hstruct, hunion, harray]), none,
        if_neg harray⟩)

/-- A scalar that fits has no text. -/
def Unprinted (printer : Printer) (sentinel : ℕ) (kind : Kind) (p : ℕ) : Prop :=
  alignUp p kind.size + kind.size ≤ sentinel ∧ printer.text ⟨kind, alignUp p kind.size⟩ = none

theorem planScalar_eq_undefined_iff {kind : Kind} :
    planScalar printer sentinel kind p rest = .undefined ↔
      Unprinted printer sentinel kind p := by
  unfold planScalar getScalarvalue Unprinted
  dsimp only
  by_cases hfits : alignUp p kind.size + kind.size ≤ sentinel
  · rw [if_pos hfits]
    cases hprint : printer.text ⟨kind, alignUp p kind.size⟩ <;> simp [hprint, hfits]
  · rw [if_neg hfits]
    simp [hfits]

/-- A scalar is read, or it does not fit, or it has no text. -/
theorem planScalar_cases (printer : Printer) (sentinel : ℕ) (kind : Kind) (p : ℕ)
    (rest : List Char) :
    planScalar printer sentinel kind p rest = .null none ∨
      planScalar printer sentinel kind p rest = .undefined ∨
      ∃ p' text reads,
        planScalar printer sentinel kind p rest = .leaf p' (some rest) text reads := by
  unfold planScalar
  cases getScalarvalue kind p sentinel with
  | none => exact .inl rfl
  | some r =>
    dsimp only
    cases printer.text r with
    | none => exact .inr (.inl rfl)
    | some text => exact .inr (.inr ⟨_, _, _, rfl⟩)

variable (printer sentinel p) in
/-- What the `switch( *type)` can do with a text. -/
inductive Planned (nextType : List Char → List Char) : List Char → Plan → Prop
  /-- At the terminator `*p_type` is moved behind it. -/
  | terminator : Planned nextType [] (.leaf p none none [])
  | null (s : List Char) (text : Option (List Char)) : Planned nextType s (.null text)
  | leaf {c : Char} {s rest : List Char} (hrest : rest = s ∨ c = '^' ∧ rest = nextType (c :: s))
      (p' : ℕ) (text : Option (List Char)) (reads : List Read) :
      Planned nextType (c :: s) (.leaf p' (some rest) text reads)
  | unprinted {kind : Kind} (s : List Char) (hkind : Unprinted printer sentinel kind p) :
      Planned nextType (kind.code :: s) .undefined
  | noTag {c : Char} {s : List Char} (hc : c = '{' ∨ c = '(') (hs : '=' ∉ s) :
      Planned nextType (c :: s) .undefined
  | struct {tag : List Char} (htag : '=' ∉ tag) (members : List Char) :
      Planned nextType ('{' :: (tag ++ '=' :: members)) (.struct tag members)
  | union {tag : List Char} (htag : '=' ∉ tag) (members : List Char) :
      Planned nextType ('(' :: (tag ++ '=' :: members)) (.union tag members)
  | noElements {s : List Char} (hs : atoi s ≤ 0) : Planned nextType ('[' :: s) .undefined
  | array {s : List Char} (hs : 0 < atoi s) :
      Planned nextType ('[' :: s) (.array (atoi s).toNat (s.dropWhile Char.isDigit))

theorem planned_planScalar (kind : Kind)
    (hrest : rest = s ∨ kind.code = '^' ∧ rest = nextType (kind.code :: s)) :
    Planned printer sentinel p nextType (kind.code :: s)
      (planScalar printer sentinel kind p rest) := by
  rcases planScalar_cases printer sentinel kind p rest with
    hnull | hundefined | ⟨p', text, reads, hleaf⟩
  · rw [hnull]
    exact .null _ none
  · rw [hundefined]
    exact .unprinted s (planScalar_eq_undefined_iff.mp hundefined)
  · rw [hleaf]
    exact .leaf hrest p' text reads

theorem plan_planned (nextType : List Char → List Char) (printer : Printer)
    (sentinel p : ℕ) (s : List Char) :
    Planned printer sentinel p nextType s (plan nextType printer sentinel p s) := by
  cases s with
  | nil => exact .terminator
  | cons c t =>
    rcases plan_cons_cases nextType printer sentinel p c t with
      ⟨scalar, hcode, h⟩ | ⟨text, h⟩ | ⟨_, text, h⟩ | ⟨rfl, h⟩ | ⟨rfl, h⟩ | ⟨rfl, h⟩ | ⟨rfl, h⟩
    · obtain rfl := scalarOfCode_eq_some_iff.mp hcode
      rw [h]
      exact planned_planScalar (.scalar scalar) (.inl rfl)
    · rw [h]
      exact .null _ _
    · rw [h]
      exact .leaf (.inl rfl) p text []
    · rw [h]
      exact planned_planScalar .pointer (.inr ⟨rfl, rfl⟩)
    · rw [h]
      cases hscan : scan '=' t with
      | none => exact .noTag (.inl rfl) (scan_eq_none_iff.mp hscan)
      | some r =>
        obtain ⟨rfl, htag⟩ := scan_eq_some_iff.mp (show scan '=' t = some (r.1, r.2) from hscan)
        exact .struct htag r.2
    · rw [h]
      cases hscan : scan '=' t with
      | none => exact .noTag (.inr rfl) (scan_eq_none_iff.mp hscan)
      | some r =>
        obtain ⟨rfl, htag⟩ := scan_eq_some_iff.mp (show scan '=' t = some (r.1, r.2) from hscan)
        exact .union htag r.2
    · rw [h]
      split
      next hcount => exact .noElements hcount
      next hcount => exact .array (by omega)

theorem plan_struct (htag : '=' ∉ tag) (members : List Char) :
    plan nextType printer sentinel p ('{' :: (tag ++ '=' :: members)) = .struct tag members := by
  simp [plan, scalarOfCode, scan_append htag]

theorem plan_union (htag : '=' ∉ tag) (members : List Char) :
    plan nextType printer sentinel p ('(' :: (tag ++ '=' :: members)) = .union tag members := by
  simp [plan, scalarOfCode, scan_append htag]

theorem plan_array (hs : 0 < atoi s) : plan nextType printer sentinel p ('[' :: s) =
    .array (atoi s).toNat (s.dropWhile Char.isDigit) := by
  simp [plan, scalarOfCode, show ¬atoi s ≤ 0 by omega]

theorem plan_scalar (scalar : Scalar) (s : List Char) :
    plan nextType printer sentinel p (scalar.code :: s) =
      planScalar printer sentinel (.scalar scalar) p s := by
  rw [plan, scalarOfCode_eq_some_iff.mpr rfl]

/-- The `switch( *type)` goes wrong at a value without a text, where a `=` is missing, and at an
array without elements. -/
theorem plan_eq_undefined_iff : plan nextType printer sentinel p s = .undefined ↔
    (∃ kind t, s = kind.code :: t ∧ Unprinted printer sentinel kind p) ∨
    (∃ t, (s = '{' :: t ∨ s = '(' :: t) ∧ '=' ∉ t) ∨ ∃ t, s = '[' :: t ∧ atoi t ≤ 0 := by
  constructor
  · intro h
    have hplanned := plan_planned nextType printer sentinel p s
    rw [h] at hplanned
    cases hplanned with
    | @unprinted kind t hkind => exact .inl ⟨kind, t, rfl, hkind⟩
    | @noTag c t hc ht =>
      exact .inr (.inl ⟨t, hc.imp (congrArg (· :: t)) (congrArg (· :: t)), ht⟩)
    | @noElements t ht => exact .inr (.inr ⟨t, rfl, ht⟩)
  · rintro (⟨kind, t, rfl, hkind⟩ | ⟨t, rfl | rfl, ht⟩ | ⟨t, rfl, ht⟩)
    · cases kind with
      | scalar scalar =>
        rw [Kind.code, plan_scalar]
        exact planScalar_eq_undefined_iff.mpr hkind
      | pointer => exact planScalar_eq_undefined_iff.mpr hkind
    · simp [plan, scalarOfCode, scan_eq_none_iff.mpr ht]
    · simp [plan, scalarOfCode, scan_eq_none_iff.mpr ht]
    · simp [plan, scalarOfCode, ht]

/-- `mulle_objc_signature_next_type` goes on behind the `^` of a pointer. -/
def SkipsPointer (nextType : List Char → List Char) : Prop :=
  ∀ s, nextType ('^' :: s) <:+ s

/-- Behind a leaf less is left. -/
theorem of_plan_eq_leaf (hnext : SkipsPointer nextType)
    (h : plan nextType printer sentinel p s = .leaf p' (some rest) text reads) :
    rest <:+ s ∧ rest.length < s.length := by
  have hplanned := plan_planned nextType printer sentinel p s
  rw [h] at hplanned
  cases hplanned with
  | @leaf c t _ hrest =>
    have hsuffix : rest <:+ t := by
      rcases hrest with rfl | ⟨rfl, rfl⟩
      · exact List.suffix_refl _
      · exact hnext t
    exact ⟨hsuffix.trans (List.suffix_cons c t), Nat.lt_succ_of_le hsuffix.length_le⟩

end Plan

section Outcome

variable {o : Option Outcome} {f : ℕ → Option (List Char) → Option Outcome} {p' : ℕ}
  {rest : Option (List Char)} {out header : List Char} {reads : List Read}

theorem map_behind_eq_done :
    o.map (Outcome.behind header []) = some (Outcome.done p' rest out reads) ↔
      ∃ out', o = some (Outcome.done p' rest out' reads) ∧ out = header ++ out' := by
  rcases o with _ | _ | _ | ⟨p₁, rest₁, out₁, reads₁⟩
  · simp
  · simp [Outcome.behind]
  · simp [Outcome.behind]
  · simp only [Option.map_some, Outcome.behind, List.nil_append, Option.some.injEq,
      Outcome.done.injEq]
    constructor
    · rintro ⟨rfl, rfl, rfl, rfl⟩
      exact ⟨out₁, ⟨rfl, rfl, rfl, rfl⟩, rfl⟩
    · rintro ⟨out', ⟨rfl, rfl, rfl, rfl⟩, rfl⟩
      exact ⟨rfl, rfl, rfl, rfl⟩

theorem bind_andThen_eq_done :
    o.bind (Outcome.andThen f) = some (.done p' rest out reads) ↔
      ∃ p₁ rest₁ out₁ reads₁ out₂ reads₂, o = some (.done p₁ rest₁ out₁ reads₁) ∧ p₁ ≠ 0 ∧
        f p₁ rest₁ = some (.done p' rest out₂ reads₂) ∧ out = out₁ ++ out₂ ∧
        reads = reads₁ ++ reads₂ := by
  rcases o with _ | _ | _ | ⟨p₁, rest₁, out₁, reads₁⟩
  · simp
  · simp [Outcome.andThen]
  · simp [Outcome.andThen]
  · rw [Option.bind_some, Outcome.andThen]
    constructor
    · intro h
      split at h
      next => simp at h
      next hp₁ =>
      obtain ⟨o', ho', hbehind⟩ := Option.map_eq_some_iff.mp h
      rcases o' with _ | _ | ⟨p₂, rest₂, out₂, reads₂⟩
      · simp [Outcome.behind] at hbehind
      · simp [Outcome.behind] at hbehind
      · obtain ⟨rfl, rfl, rfl, rfl⟩ := Outcome.done.inj hbehind
        exact ⟨p₁, rest₁, out₁, reads₁, out₂, reads₂, rfl, hp₁, ho', rfl, rfl⟩
    · rintro ⟨_, _, _, _, out₂, reads₂, ho, hp₁, hf, rfl, rfl⟩
      obtain ⟨rfl, rfl, rfl, rfl⟩ := Outcome.done.inj (Option.some.inj ho)
      rw [if_neg hp₁, hf]
      rfl

end Outcome

section Decodes

variable (nextType : List Char → List Char) (printer : Printer) (sentinel : ℕ)

/-- From a text, beginning at `p`, these values can be read, up to `p'`. The rest is left. -/
inductive Decodes : Task → ℕ → List Read → List Char → ℕ → Prop
  | leaf {s r : List Char} {p p' : ℕ} {text : Option (List Char)} {reads : List Read}
      (hplan : plan nextType printer sentinel p s = .leaf p' (some r) text reads) :
      Decodes (.type s) p reads r p'
  | struct {tag m r : List Char} {p p' : ℕ} {reads : List Read} (htag : '=' ∉ tag)
      (hmembers : Decodes (.members m) p reads r p') :
      Decodes (.type ('{' :: (tag ++ '=' :: m))) p reads r p'
  | emptyUnion {tag r : List Char} {p : ℕ} (htag : '=' ∉ tag) :
      Decodes (.type ('(' :: (tag ++ '=' :: ')' :: r))) p [] r p
  | union {tag m skipped r : List Char} {p p' : ℕ} {reads : List Read} (htag : '=' ∉ tag)
      (hm : m.head? ≠ some ')') (hskipped : ')' ∉ skipped) (hp : p' ≠ 0)
      (hmember : Decodes (.type m) p reads (skipped ++ ')' :: r) p') :
      Decodes (.type ('(' :: (tag ++ '=' :: m))) p reads r p'
  | array {s r : List Char} {p p' : ℕ} {reads : List Read} (hs : 0 < atoi s)
      (helements : Decodes (.elements (atoi s).toNat (s.dropWhile Char.isDigit)) p reads
        (']' :: r) p') :
      Decodes (.type ('[' :: s)) p reads r p'
  | noMember {r : List Char} {p : ℕ} : Decodes (.members ('}' :: r)) p [] r p
  | member {m m' r : List Char} {p p' p'' : ℕ} {reads reads' : List Read}
      (hm : m.head? ≠ some '}') (hfirst : Decodes (.type m) p reads m' p') (hp : p' ≠ 0)
      (hrest : Decodes (.members m') p' reads' r p'') :
      Decodes (.members m) p (reads ++ reads') r p''
  | element {m r : List Char} {p p' : ℕ} {reads : List Read}
      (hfirst : Decodes (.type m) p reads r p') (hp : p' ≠ 0) :
      Decodes (.elements 1 m) p reads r p'
  | elements {n : ℕ} {m r r' : List Char} {p p' p'' : ℕ} {reads reads' : List Read}
      (hfirst : Decodes (.type m) p reads r p') (hp : p' ≠ 0)
      (hrest : Decodes (.elements (n + 1) m) p' reads' r' p'') :
      Decodes (.elements (n + 2) m) p (reads ++ reads') r' p''

variable {nextType printer sentinel} {t : Task} {p p' : ℕ} {reads : List Read}
  {s m r sep out : List Char}

/-- What is left is a part of the text, and shorter. -/
theorem Decodes.suffix (hnext : SkipsPointer nextType)
    (h : Decodes nextType printer sentinel t p reads r p') :
    r <:+ t.text ∧ r.length < t.text.length := by
  have htail {c : Char} {tag m r : List Char} (hr : r <:+ m ∧ r.length < m.length) :
      r <:+ c :: (tag ++ '=' :: m) ∧ r.length < (c :: (tag ++ '=' :: m)).length := by
    constructor
    · exact hr.1.trans ((List.suffix_cons _ _).trans
        ((List.suffix_append _ _).trans (List.suffix_cons _ _)))
    · simp only [List.length_cons, List.length_append]
      omega
  induction h with
  | leaf hplan => exact of_plan_eq_leaf hnext hplan
  | struct htag hmembers ih => exact htail ih
  | emptyUnion htag => exact htail ⟨List.suffix_cons _ _, Nat.lt_succ_self _⟩
  | @union tag m skipped r p p' reads htag hm hskipped hp hmember ih =>
    apply htail
    have hsuffix : r <:+ skipped ++ ')' :: r :=
      (List.suffix_cons _ _).trans (List.suffix_append _ _)
    exact ⟨hsuffix.trans ih.1, Nat.lt_of_le_of_lt hsuffix.length_le ih.2⟩
  | @array s r p p' reads hs helements ih =>
    have hsuffix : r <:+ '[' :: s := (List.suffix_cons ']' r).trans (ih.1.trans
      ((List.dropWhile_suffix _).trans (List.suffix_cons _ _)))
    refine ⟨hsuffix, ?_⟩
    have hlt := ih.2
    have hle := (List.dropWhile_suffix (l := s) Char.isDigit).length_le
    simp only [Task.text, List.length_cons] at hlt ⊢
    omega
  | noMember => exact ⟨List.suffix_cons _ _, Nat.lt_succ_self _⟩
  | member hm hfirst hp hrest ihfirst ihrest =>
    exact ⟨ihrest.1.trans ihfirst.1, Nat.lt_trans ihrest.2 ihfirst.2⟩
  | element hfirst hp ih => exact ih
  | elements hfirst hp hrest ihfirst ihrest => exact ihrest

/-- What one turn of the loop over members does. -/
theorem decodes_of_structLoop {d : ℕ → List Char → List Char → Option Outcome} {fuel : ℕ}
    {any : Bool}
    (hd : ∀ {p s sep p' r out reads}, d p s sep = some (.done p' (some r) out reads) →
      Decodes nextType printer sentinel (.type s) p reads r p')
    (h : structLoop d fuel p (some m) sep any = some (.done p' (some r) out reads)) :
    Decodes nextType printer sentinel (.members m) p reads r p' := by
  induction fuel generalizing p m sep any out reads with
  | zero => simp [structLoop] at h
  | succ fuel ih =>
    rw [structLoop] at h
    split at h
    next hclose =>
      obtain ⟨c, m, rfl⟩ : ∃ c t, m = c :: t := by
        cases m with
        | nil => simp at hclose
        | cons c t => exact ⟨c, t, rfl⟩
      obtain rfl : c = '}' := by simpa using hclose
      obtain ⟨rfl, hr, _, rfl⟩ := Outcome.done.inj (Option.some.inj h)
      obtain rfl : m = r := by simpa using hr
      exact .noMember
    next hopen =>
      obtain ⟨p₁, rest₁, out₁, reads₁, out₂, reads₂, hfirst, hp, hrest, -, rfl⟩ :=
        bind_andThen_eq_done.mp h
      cases rest₁ with
      | none =>
        cases fuel with
        | zero => simp [structLoop] at hrest
        | succ fuel => simp [structLoop] at hrest
      | some m' => exact .member hopen (hd hfirst) hp (ih hrest)

/-- The rest of a union is skipped up to the next closing bracket. -/
theorem unionEnd_eq_done {close : List Char} {rest rest' : Option (List Char)}
    (h : unionEnd close p rest = some (.done p' rest' out reads)) :
    ∃ skipped r, rest' = some r ∧ rest = some (skipped ++ ')' :: r) ∧ ')' ∉ skipped ∧ p' = p ∧
      reads = [] := by
  unfold unionEnd at h
  cases hscan : rest.bind (scan ')') with
  | none => simp [hscan] at h
  | some found =>
    obtain ⟨m, rfl, hm⟩ := Option.bind_eq_some_iff.mp hscan
    obtain ⟨rfl, hskipped⟩ := scan_eq_some_iff.mp
      (show scan ')' m = some (found.1, found.2) from hm)
    simp only [hscan] at h
    obtain ⟨rfl, rfl, _, rfl⟩ := Outcome.done.inj (Option.some.inj h)
    exact ⟨found.1, found.2, rfl, rfl, hskipped, rfl, rfl⟩

theorem decodes_of_unionMember {d : ℕ → List Char → List Char → Option Outcome}
    {tag : List Char} (htag : '=' ∉ tag)
    (hd : ∀ {p s sep p' r out reads}, d p s sep = some (.done p' (some r) out reads) →
      Decodes nextType printer sentinel (.type s) p reads r p')
    (h : unionMember d p m = some (.done p' (some r) out reads)) :
    Decodes nextType printer sentinel (.type ('(' :: (tag ++ '=' :: m))) p reads r p' := by
  unfold unionMember at h
  split at h
  next hclose =>
    obtain ⟨skipped, _, hr, hm, hskipped, rfl, rfl⟩ := unionEnd_eq_done h
    obtain rfl := Option.some.inj hr
    obtain rfl := Option.some.inj hm
    cases skipped with
    | nil => exact .emptyUnion htag
    | cons c skipped => simp_all
  next hopen =>
    obtain ⟨p₁, rest₁, out₁, reads₁, out₂, reads₂, hfirst, hp, hrest, -, rfl⟩ :=
      bind_andThen_eq_done.mp h
    obtain ⟨skipped, _, hr, rfl, hskipped, rfl, rfl⟩ := unionEnd_eq_done hrest
    obtain rfl := Option.some.inj hr
    rw [List.append_nil]
    exact .union htag hopen hskipped hp (hd hfirst)

/-- At the terminator nothing can be read. -/
theorem Decodes.ne_nil (h : Decodes nextType printer sentinel t p reads r p') : t.text ≠ [] := by
  induction h with
  | @leaf s r p p' text reads hplan =>
    rintro rfl
    simp [plan] at hplan
  | struct | emptyUnion | union | array | noMember => exact List.cons_ne_nil _ _
  | member hm hfirst hp hrest ihfirst ihrest => exact ihfirst
  | element hfirst hp ih => exact ih
  | elements hfirst hp hrest ihfirst ihrest => exact ihfirst

/-- The last element of an array has an address. -/
theorem Decodes.ne_null {n : ℕ}
    (h : Decodes nextType printer sentinel (.elements n m) p reads r p') :
    p' ≠ 0 := by
  generalize ht : Task.elements n m = t at h
  induction h generalizing n m with
  | leaf | struct | emptyUnion | union | array | noMember | member => simp at ht
  | element hfirst hp => exact hp
  | elements hfirst hp hrest ihfirst ihrest => exact ihrest rfl

theorem decodes_of_arrayLoop {d : ℕ → List Char → List Char → Option Outcome} {n : ℕ}
    {rest : Option (List Char)}
    (hd : ∀ {p s sep p' r out reads}, d p s sep = some (.done p' (some r) out reads) →
      Decodes nextType printer sentinel (.type s) p reads r p')
    (hnil : ∀ {p s sep p' out reads}, d p s sep = some (.done p' none out reads) → s = [])
    (h : arrayLoop d m (n + 1) p sep rest = some (.done p' (some r) out reads)) :
    Decodes nextType printer sentinel (.elements (n + 1) m) p reads r p' := by
  induction n generalizing p sep rest out reads with
  | zero =>
    obtain ⟨p₁, rest₁, out₁, reads₁, out₂, reads₂, hfirst, hp, hrest, -, rfl⟩ :=
      bind_andThen_eq_done.mp h
    rw [arrayLoop] at hrest
    obtain ⟨rfl, rfl, _, rfl⟩ := Outcome.done.inj (Option.some.inj hrest)
    rw [List.append_nil]
    exact .element (hd hfirst) hp
  | succ n ih =>
    obtain ⟨p₁, rest₁, out₁, reads₁, out₂, reads₂, hfirst, hp, hrest, -, rfl⟩ :=
      bind_andThen_eq_done.mp h
    have helements := ih hrest
    cases rest₁ with
    | none => exact absurd (hnil hfirst) helements.ne_nil
    | some r₁ => exact .elements (hd hfirst) hp helements

theorem structLoop_ne_done_none {d : ℕ → List Char → List Char → Option Outcome} {fuel : ℕ}
    {type : Option (List Char)} {any : Bool} :
    structLoop d fuel p type sep any ≠ some (.done p' none out reads) := by
  induction fuel generalizing p type sep any out reads with
  | zero => simp [structLoop]
  | succ fuel ih =>
    cases type with
    | none => simp [structLoop]
    | some m =>
      rw [structLoop]
      split
      · simp
      · intro h
        obtain ⟨_, _, _, _, _, _, _, _, hrest, _⟩ := bind_andThen_eq_done.mp h
        exact ih hrest

theorem unionMember_ne_done_none {d : ℕ → List Char → List Char → Option Outcome} :
    unionMember d p m ≠ some (.done p' none out reads) := by
  intro h
  unfold unionMember at h
  split at h
  · obtain ⟨_, _, hsome, _⟩ := unionEnd_eq_done h
    simp at hsome
  · obtain ⟨_, _, _, _, _, _, _, _, hend, _⟩ := bind_andThen_eq_done.mp h
    obtain ⟨_, _, hsome, _⟩ := unionEnd_eq_done hend
    simp at hsome

/-- An array ends with its bracket. -/
theorem arrayEnd_eq_done {rest rest' : Option (List Char)}
    (h : arrayEnd p rest = some (.done p' rest' out reads)) :
    ∃ r, rest = some (']' :: r) ∧ rest' = some r ∧ p' = p ∧ reads = [] := by
  cases rest with
  | none => simp [arrayEnd] at h
  | some m =>
    rw [arrayEnd] at h
    split at h
    next hclose =>
      obtain ⟨rfl, rfl, _, rfl⟩ := Outcome.done.inj (Option.some.inj h)
      cases m with
      | nil => simp at hclose
      | cons c m =>
        obtain rfl : c = ']' := by simpa using hclose
        exact ⟨m, rfl, rfl, rfl, rfl⟩
    · simp at h

/-- Nowhere but at the terminator `*p_type` is moved behind it. -/
theorem eq_nil_of_describe {fuel : ℕ}
    (h : describe nextType printer sentinel fuel p s sep = some (.done p' none out reads)) :
    s = [] := by
  cases fuel with
  | zero => simp [describe] at h
  | succ fuel =>
    rw [describe] at h
    split at h
    next => simp at h
    next => simp at h
    next hplan =>
      have hplanned := plan_planned nextType printer sentinel p s
      rw [hplan] at hplanned
      obtain ⟨rfl, rfl, _, rfl⟩ := Outcome.done.inj (Option.some.inj h)
      cases hplanned
      rfl
    next =>
      obtain ⟨_, hloop, _⟩ := map_behind_eq_done.mp h
      exact absurd hloop structLoop_ne_done_none
    next =>
      obtain ⟨_, hmember, _⟩ := map_behind_eq_done.mp h
      exact absurd hmember unionMember_ne_done_none
    next =>
      obtain ⟨_, hloop, _⟩ := map_behind_eq_done.mp h
      obtain ⟨_, _, _, _, _, _, _, _, hend, _⟩ := bind_andThen_eq_done.mp hloop
      obtain ⟨_, _, hsome, _⟩ := arrayEnd_eq_done hend
      simp at hsome

/-- `_MulleObjCDescribeMemory` reads what can be read. -/
theorem decodes_of_describe {fuel : ℕ}
    (h : describe nextType printer sentinel fuel p s sep = some (.done p' (some r) out reads)) :
    Decodes nextType printer sentinel (.type s) p reads r p' := by
  induction fuel generalizing p s sep p' r out reads with
  | zero => simp [describe] at h
  | succ fuel ih =>
    rw [describe] at h
    have hplanned := plan_planned nextType printer sentinel p s
    split at h
    next => simp at h
    next => simp at h
    next hplan =>
      obtain ⟨rfl, rfl, _, rfl⟩ := Outcome.done.inj (Option.some.inj h)
      exact .leaf hplan
    next tag members hplan =>
      rw [hplan] at hplanned
      obtain ⟨out', hloop, _⟩ := map_behind_eq_done.mp h
      cases hplanned with
      | struct htag => exact .struct htag (decodes_of_structLoop ih hloop)
    next tag members hplan =>
      rw [hplan] at hplanned
      obtain ⟨out', hmember, _⟩ := map_behind_eq_done.mp h
      cases hplanned with
      | union htag => exact decodes_of_unionMember htag ih hmember
    next n element hplan =>
      rw [hplan] at hplanned
      obtain ⟨out', hloop, _⟩ := map_behind_eq_done.mp h
      obtain ⟨p₁, rest₁, out₁, reads₁, out₂, reads₂, helements, -, hend, -, rfl⟩ :=
        bind_andThen_eq_done.mp hloop
      obtain ⟨_, rfl, hr, rfl, rfl⟩ := arrayEnd_eq_done hend
      obtain rfl := Option.some.inj hr
      cases hplanned with
      | @array s hs =>
        obtain ⟨k, hk⟩ : ∃ k, (atoi s).toNat = k + 1 := ⟨(atoi s).toNat - 1, by omega⟩
        rw [hk] at helements
        rw [List.append_nil]
        exact .array hs (hk ▸ decodes_of_arrayLoop ih eq_nil_of_describe helements)

variable (nextType printer sentinel) in
/-- The loops and the calls come to these values and to this rest, whenever they may nest as
deeply as the text is long. -/
def Evaluates : Task → ℕ → List Read → List Char → ℕ → Prop
  | .type s, p, reads, r, p' => ∀ fuel sep, s.length < fuel →
    ∃ out, describe nextType printer sentinel fuel p s sep = some (.done p' (some r) out reads)
  | .members m, p, reads, r, p' => ∀ fuel k sep any, m.length < fuel → m.length < k →
    ∃ out, structLoop (describe nextType printer sentinel fuel) k p (some m) sep any =
      some (.done p' (some r) out reads)
  | .elements n m, p, reads, r, p' => ∀ fuel sep rest, m.length < fuel →
    ∃ out, arrayLoop (describe nextType printer sentinel fuel) m n p sep rest =
      some (.done p' (some r) out reads)

/-- What can be read, `_MulleObjCDescribeMemory` reads. -/
theorem Decodes.evaluates (hnext : SkipsPointer nextType)
    (h : Decodes nextType printer sentinel t p reads r p') :
    Evaluates nextType printer sentinel t p reads r p' := by
  induction h with
  | leaf hplan =>
    intro fuel sep hfuel
    obtain ⟨fuel, rfl⟩ : ∃ k, fuel = k + 1 := ⟨fuel - 1, by omega⟩
    rw [describe, hplan]
    exact ⟨_, rfl⟩
  | struct htag hmembers ih =>
    intro fuel sep hfuel
    obtain ⟨fuel, rfl⟩ : ∃ k, fuel = k + 1 := ⟨fuel - 1, by omega⟩
    simp only [List.length_cons, List.length_append] at hfuel
    obtain ⟨out, hout⟩ := ih fuel fuel [' '] false (by omega) (by omega)
    rw [describe, plan_struct htag]
    exact ⟨_, map_behind_eq_done.mpr ⟨out, hout, rfl⟩⟩
  | emptyUnion htag =>
    intro fuel sep hfuel
    obtain ⟨fuel, rfl⟩ : ∃ k, fuel = k + 1 := ⟨fuel - 1, by omega⟩
    rw [describe, plan_union htag]
    exact ⟨_, map_behind_eq_done.mpr ⟨_, rfl, rfl⟩⟩
  | @union tag m skipped r p p' reads htag hm hskipped hp hmember ih =>
    intro fuel sep hfuel
    obtain ⟨fuel, rfl⟩ : ∃ k, fuel = k + 1 := ⟨fuel - 1, by omega⟩
    simp only [List.length_cons, List.length_append] at hfuel
    obtain ⟨out, hout⟩ := ih fuel [' '] (by omega)
    rw [describe, plan_union htag]
    refine ⟨_, map_behind_eq_done.mpr ⟨out ++ [' ', ')'], ?_, rfl⟩⟩
    rw [unionMember, if_neg hm]
    refine bind_andThen_eq_done.mpr
      ⟨_, _, out, reads, [' ', ')'], [], hout, hp, ?_, rfl, (List.append_nil _).symm⟩
    rw [unionEnd, Option.bind_some, scan_append hskipped]
  | @array s r p p' reads hs helements ih =>
    intro fuel sep hfuel
    obtain ⟨fuel, rfl⟩ : ∃ k, fuel = k + 1 := ⟨fuel - 1, by omega⟩
    have hle := (List.dropWhile_suffix (l := s) Char.isDigit).length_le
    rw [List.length_cons] at hfuel
    obtain ⟨out, hout⟩ := ih fuel [' '] none (by omega)
    rw [describe, plan_array hs]
    exact ⟨_, map_behind_eq_done.mpr ⟨_, bind_andThen_eq_done.mpr
      ⟨_, _, out, reads, _, [], hout, helements.ne_null, rfl, rfl, by simp⟩, rfl⟩⟩
  | noMember =>
    intro fuel k sep any hfuel hk
    obtain ⟨k, rfl⟩ : ∃ n, k = n + 1 := ⟨k - 1, by omega⟩
    exact ⟨_, if_pos rfl⟩
  | member hm hfirst hp hrest ihfirst ihrest =>
    intro fuel k sep any hfuel hk
    obtain ⟨k, rfl⟩ : ∃ n, k = n + 1 := ⟨k - 1, by omega⟩
    have hlt := (hfirst.suffix hnext).2
    rw [Task.text] at hlt
    obtain ⟨out, hout⟩ := ihfirst fuel sep hfuel
    obtain ⟨out', hout'⟩ := ihrest fuel k [',', ' '] true (by omega) (by omega)
    rw [structLoop, if_neg hm]
    exact ⟨_, bind_andThen_eq_done.mpr ⟨_, _, out, _, out', _, hout, hp, hout', rfl, rfl⟩⟩
  | element hfirst hp ih =>
    intro fuel sep rest hfuel
    obtain ⟨out, hout⟩ := ih fuel sep hfuel
    exact ⟨_, bind_andThen_eq_done.mpr ⟨_, _, out, _, [], [], hout, hp, rfl, rfl, by simp⟩⟩
  | elements hfirst hp hrest ihfirst ihrest =>
    intro fuel sep rest hfuel
    obtain ⟨out, hout⟩ := ihfirst fuel sep hfuel
    obtain ⟨out', hout'⟩ := ihrest fuel [',', ' '] _ hfuel
    exact ⟨_, bind_andThen_eq_done.mpr ⟨_, _, out, _, out', _, hout, hp, hout', rfl, rfl⟩⟩

/-- `_MulleObjCDescribeMemory` comes to the same values and the same rest. -/
theorem describeData_eq_done_iff (hnext : SkipsPointer nextType) {data : Data} :
    (∃ out, describeData nextType printer data s sep = some (.done p' (some r) out reads)) ↔
      Decodes nextType printer data.sentinel (.type s) data.bytes reads r p' := by
  constructor
  · rintro ⟨out, h⟩
    exact decodes_of_describe h
  · intro h
    exact h.evaluates hnext _ sep (Nat.lt_succ_self _)

end Decodes

end MulleObjC.Describe
