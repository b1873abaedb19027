import Mathlib.Logic.Relation
import MulleObjC.Describe.Spans

/-!
# Descriptions along broken types

The loops of `_MulleObjCDescribeMemory` do not look for the terminator of the type. A text is
described safely if they do not come to one of the places where they would need to.
-/

namespace MulleObjC.Describe

/-- A call is safe if it does nothing undefined, and either returns `NULL` or does not leave
`*p_type` behind the terminator. -/
def Outcome.Fine : Outcome → Prop
  | undefined => False
  | null _ => True
  | done p rest _ _ => p = 0 ∨ rest.isSome = true

section Fine

variable {o : Option Outcome} {f : ℕ → Option (List Char) → Option Outcome} {out : List Char}
  {reads : List Read}

@[simp] theorem fine_behind {o : Outcome} : (o.behind out reads).Fine ↔ o.Fine := by
  cases o <;> rfl

theorem fine_map_behind : (∃ x, o.map (Outcome.behind out reads) = some x ∧ x.Fine) ↔
    ∃ x, o = some x ∧ x.Fine := by
  cases o <;> simp

theorem not_fine_map_behind : (∃ x, o.map (Outcome.behind out reads) = some x ∧ ¬x.Fine) ↔
    ∃ x, o = some x ∧ ¬x.Fine := by
  cases o <;> simp

/-- What follows a safe call with a rest. -/
theorem fine_bind_andThen (ho : ∃ x, o = some x ∧ x.Fine)
    (hf : ∀ p r out reads, o = some (.done p (some r) out reads) → p ≠ 0 →
      ∃ x, f p (some r) = some x ∧ x.Fine) :
    ∃ x, o.bind (Outcome.andThen f) = some x ∧ x.Fine := by
  obtain ⟨x, rfl, hx⟩ := ho
  rcases x with _ | out | ⟨p, _ | r, out, reads⟩
  · exact absurd hx id
  · exact ⟨_, rfl, trivial⟩
  · obtain rfl : p = 0 := by simpa [Outcome.Fine] using hx
    exact ⟨_, rfl, trivial⟩
  · rw [Option.bind_some, Outcome.andThen]
    split
    next => exact ⟨_, rfl, trivial⟩
    next hp => exact fine_map_behind.mpr (hf p r out reads rfl hp)

/-- What follows a call that is not safe, if it looks at the type. -/
theorem bind_andThen_eq_undefined (ho : ∃ x, o = some x ∧ ¬x.Fine)
    (hf : ∀ p, f p none = some .undefined) :
    o.bind (Outcome.andThen f) = some .undefined := by
  obtain ⟨x, rfl, hx⟩ := ho
  rcases x with _ | out | ⟨p, _ | r, out, reads⟩
  · rfl
  · exact absurd trivial hx
  · have hp : p ≠ 0 := fun hp => hx (.inl hp)
    simp [Outcome.andThen, hp, hf, Outcome.behind]
  · simp [Outcome.Fine] at hx

end Fine

section Places

variable (nextType : List Char → List Char) (printer : Printer) (sentinel : ℕ)

/-- A part of a text, and where in memory its values would begin. -/
abbrev Place := Task × ℕ

/-- A type begins the text, and its values are in the block, from `p` up to `p'`, and can be
printed. There is no block at `NULL`. -/
def HasRoom (m : List Char) (p : ℕ) (r : List Char) (p' : ℕ) : Prop :=
  p ≠ 0 ∧ ∃ reads, Spans nextType (.type m) (reads.map Read.kind) r ∧ Packed p reads p' ∧
    ∀ read ∈ reads, Printed printer sentinel read

/-- The next parts of a text: the members of a struct, the first member of a union, the elements
of an array, and what is behind a member or an element that has room. -/
inductive Next : Place → Place → Prop
  | struct {tag m : List Char} {p : ℕ} (htag : '=' ∉ tag) :
      Next (.type ('{' :: (tag ++ '=' :: m)), p) (.members m, p)
  | union {tag m : List Char} {p : ℕ} (htag : '=' ∉ tag) (hm : m.head? ≠ some ')') :
      Next (.type ('(' :: (tag ++ '=' :: m)), p) (.type m, p)
  | array {s : List Char} {p : ℕ} (hs : 0 < atoi s) :
      Next (.type ('[' :: s), p) (.elements (atoi s).toNat (s.dropWhile Char.isDigit), p)
  | member {m : List Char} {p : ℕ} (hm : m.head? ≠ some '}') :
      Next (.members m, p) (.type m, p)
  | members {m m' : List Char} {p p' : ℕ} (hm : m.head? ≠ some '}')
      (hfirst : HasRoom nextType printer sentinel m p m' p') :
      Next (.members m, p) (.members m', p')
  | element {n : ℕ} {m : List Char} {p : ℕ} : Next (.elements (n + 1) m, p) (.type m, p)
  | elements {n : ℕ} {m r : List Char} {p p' : ℕ}
      (hfirst : HasRoom nextType printer sentinel m p r p') :
      Next (.elements (n + 2) m, p) (.elements (n + 1) m, p')

/-- The parts of a text, as far as there is room for the values. -/
abbrev Reaches : Place → Place → Prop := Relation.ReflTransGen (Next nextType printer sentinel)

/-- At a type the text has not ended, a value that has room can be printed, a struct or union has
its `=`, an array has elements, and behind the first member of a union there is a closing
bracket. -/
structure SoundType (s : List Char) (p : ℕ) : Prop where
  ne_nil : p ≠ 0 → s ≠ []
  value : ∀ kind t, s = Kind.code kind :: t → alignUp p kind.size + kind.size ≤ sentinel →
    (printer.text ⟨kind, alignUp p kind.size⟩).isSome = true
  tag : ∀ t, s = '{' :: t ∨ s = '(' :: t → '=' ∈ t
  count : ∀ t, s = '[' :: t → 0 < atoi t
  close : ∀ tag m r p', s = '(' :: (tag ++ '=' :: m) → '=' ∉ tag → m.head? ≠ some ')' →
    HasRoom nextType printer sentinel m p r p' → ')' ∈ r

/-- The parts of a text, of which only types can be broken. -/
def Sound : Place → Prop
  | (.type s, p) => SoundType nextType printer sentinel s p
  | _ => True

variable {nextType printer sentinel} in
/-- Types that have room are read. -/
theorem hasRoom_iff {m r : List Char} {p p' : ℕ} :
    HasRoom nextType printer sentinel m p r p' ↔
      p' ≠ 0 ∧ ∃ reads, Decodes nextType printer sentinel (.type m) p reads r p' := by
  constructor
  · rintro ⟨hp, reads, hspans, hpacked, hprinted⟩
    have hle := hpacked.le
    exact ⟨by omega, reads, hspans.decodes hpacked rfl hprinted hp⟩
  · rintro ⟨hp, reads, hdecodes⟩
    exact ⟨hdecodes.ne_zero hp, reads, hdecodes.spans, hdecodes.packed, hdecodes.printed⟩

/-- However a description comes to a place, its outcome has a property. -/
def Comes (P : Outcome → Prop) : Place → Prop
  | (.type s, p) => ∀ fuel sep, s.length < fuel →
    ∃ o, describe nextType printer sentinel fuel p s sep = some o ∧ P o
  | (.members m, p) => ∀ fuel k sep any, m.length < fuel → m.length + 1 < k →
    ∃ o, structLoop (describe nextType printer sentinel fuel) k p (some m) sep any = some o ∧ P o
  | (.elements n m, p) => ∀ fuel sep rest, m.length < fuel →
    ∃ o, arrayLoop (describe nextType printer sentinel fuel) m n p sep rest = some o ∧ P o

end Places

section Bad

variable {nextType : List Char → List Char} {printer : Printer} {sentinel : ℕ}
  {s m : List Char} {p : ℕ} {a b : Place}

/-- A place that is broken is not described safely. -/
theorem comes_not_fine_of_not_sound (hnext : SkipsPointer nextType)
    (h : ¬SoundType nextType printer sentinel s p) :
    Comes nextType printer sentinel (fun o => ¬o.Fine) (.type s, p) := by
  intro fuel sep hfuel
  obtain ⟨fuel, rfl⟩ : ∃ k, fuel = k + 1 := ⟨fuel - 1, by omega⟩
  by_contra hfine
  apply h
  rw [describe] at hfine
  constructor
  case ne_nil =>
    rintro hp rfl
    exact hfine ⟨_, rfl, by simp [Outcome.Fine, hp]⟩
  case value =>
    intro kind t ht hfits
    by_contra htext
    have hplan : plan nextType printer sentinel p s = .undefined :=
      plan_eq_undefined_iff.mpr (.inl ⟨kind, t, ht, hfits, Option.not_isSome_iff_eq_none.mp htext⟩)
    rw [hplan] at hfine
    exact hfine ⟨_, rfl, id⟩
  case tag =>
    intro t ht
    by_contra hmem
    have hplan : plan nextType printer sentinel p s = .undefined :=
      plan_eq_undefined_iff.mpr (.inr (.inl ⟨t, ht, hmem⟩))
    rw [hplan] at hfine
    exact hfine ⟨_, rfl, id⟩
  case count =>
    intro t ht
    by_contra hcount
    have hplan : plan nextType printer sentinel p s = .undefined :=
      plan_eq_undefined_iff.mpr (.inr (.inr ⟨t, ht, by omega⟩))
    rw [hplan] at hfine
    exact hfine ⟨_, rfl, id⟩
  case close =>
    rintro tag m r p' rfl htag hm hroom
    by_contra hclose
    obtain ⟨hp, reads, hmember⟩ := hasRoom_iff.mp hroom
    simp only [List.length_cons, List.length_append] at hfuel
    obtain ⟨out, hout⟩ := hmember.evaluates hnext fuel [' '] (by omega)
    have hundefined : unionMember (describe nextType printer sentinel fuel) p m =
        some .undefined := by
      rw [unionMember, if_neg hm, hout, Option.bind_some, Outcome.andThen, if_neg hp, unionEnd,
        Option.bind_some, scan_eq_none_iff.mpr hclose]
      rfl
    rw [plan_union htag] at hfine
    apply hfine
    exact not_fine_map_behind.mpr ⟨.undefined, hundefined, id⟩

/-- Elements of no text leave nothing behind. -/
theorem not_fine_arrayLoop_nil {fuel n : ℕ} (hfuel : 0 < fuel) (hp : p ≠ 0) (sep : List Char)
    (rest : Option (List Char)) :
    ∃ o, arrayLoop (describe nextType printer sentinel fuel) [] (n + 1) p sep rest = some o ∧
      ¬o.Fine := by
  obtain ⟨fuel, rfl⟩ : ∃ k, fuel = k + 1 := ⟨fuel - 1, by omega⟩
  have hnil (sep : List Char) : describe nextType printer sentinel (fuel + 1) p [] sep =
      some (.done p none [] []) := rfl
  induction n generalizing sep rest with
  | zero =>
    rw [arrayLoop, hnil, Option.bind_some, Outcome.andThen, if_neg hp]
    exact not_fine_map_behind.mpr ⟨_, rfl, by simp [Outcome.Fine, hp]⟩
  | succ n ih =>
    rw [arrayLoop, hnil, Option.bind_some, Outcome.andThen, if_neg hp]
    exact not_fine_map_behind.mpr (ih _ _)

/-- If one place is not described safely, nor is the place before. -/
theorem Comes.of_next (hnext : SkipsPointer nextType) (h : Next nextType printer sentinel a b)
    (hb : Comes nextType printer sentinel (fun o => ¬o.Fine) b) :
    Comes nextType printer sentinel (fun o => ¬o.Fine) a := by
  cases h with
  | struct htag =>
    intro fuel sep hfuel
    obtain ⟨fuel, rfl⟩ : ∃ k, fuel = k + 1 := ⟨fuel - 1, by omega⟩
    simp only [List.length_cons, List.length_append] at hfuel
    rw [describe, plan_struct htag]
    exact not_fine_map_behind.mpr (hb fuel fuel _ _ (by omega) (by omega))
  | @union tag m p htag hm =>
    intro fuel sep hfuel
    obtain ⟨fuel, rfl⟩ : ∃ k, fuel = k + 1 := ⟨fuel - 1, by omega⟩
    simp only [List.length_cons, List.length_append] at hfuel
    have hundefined : unionMember (describe nextType printer sentinel fuel) p m =
        some .undefined := by
      rw [unionMember, if_neg hm]
      exact bind_andThen_eq_undefined (hb fuel _ (by omega)) fun _ => rfl
    rw [describe, plan_union htag]
    exact not_fine_map_behind.mpr ⟨.undefined, hundefined, id⟩
  | @array s p hs =>
    intro fuel sep hfuel
    obtain ⟨fuel, rfl⟩ : ∃ k, fuel = k + 1 := ⟨fuel - 1, by omega⟩
    have hle := (List.dropWhile_suffix (l := s) Char.isDigit).length_le
    rw [List.length_cons] at hfuel
    rw [describe, plan_array hs]
    exact not_fine_map_behind.mpr ⟨.undefined, bind_andThen_eq_undefined
      (hb fuel _ _ (by omega)) fun _ => rfl, id⟩
  | member hm =>
    intro fuel k sep any hfuel hk
    obtain ⟨k, rfl⟩ : ∃ n, k = n + 2 := ⟨k - 2, by omega⟩
    rw [structLoop, if_neg hm]
    exact ⟨.undefined, bind_andThen_eq_undefined (hb fuel _ hfuel) fun _ => rfl, id⟩
  | members hm hroom =>
    intro fuel k sep any hfuel hk
    obtain ⟨hp, reads, hfirst⟩ := hasRoom_iff.mp hroom
    obtain ⟨k, rfl⟩ : ∃ n, k = n + 1 := ⟨k - 1, by omega⟩
    have hlt := (hfirst.suffix hnext).2
    rw [Task.text] at hlt
    obtain ⟨out, hout⟩ := hfirst.evaluates hnext fuel sep hfuel
    rw [structLoop, if_neg hm, hout, Option.bind_some, Outcome.andThen, if_neg hp]
    exact not_fine_map_behind.mpr (hb fuel k _ _ (by omega) (by omega))
  | @element n m p =>
    intro fuel sep rest hfuel
    obtain ⟨o, ho, hfine⟩ := hb fuel sep hfuel
    rcases o with _ | out | ⟨p', _ | r, out, reads⟩
    · exact ⟨.undefined, by rw [arrayLoop, ho]; rfl, id⟩
    · exact absurd trivial hfine
    · have hp' : p' ≠ 0 := fun hp' => hfine (.inl hp')
      obtain rfl := eq_nil_of_describe ho
      obtain ⟨fuel, rfl⟩ : ∃ k, fuel = k + 1 := ⟨fuel - 1, by omega⟩
      obtain ⟨rfl, _⟩ := Outcome.done.inj (Option.some.inj ho)
      exact not_fine_arrayLoop_nil hfuel hp' sep rest
    · simp [Outcome.Fine] at hfine
  | elements hroom =>
    intro fuel sep rest hfuel
    obtain ⟨hp, reads, hfirst⟩ := hasRoom_iff.mp hroom
    obtain ⟨out, hout⟩ := hfirst.evaluates hnext fuel sep hfuel
    rw [arrayLoop, hout, Option.bind_some, Outcome.andThen, if_neg hp]
    exact not_fine_map_behind.mpr (hb fuel _ _ hfuel)

theorem Comes.of_reaches (hnext : SkipsPointer nextType)
    (h : Reaches nextType printer sentinel a b)
    (hb : Comes nextType printer sentinel (fun o => ¬o.Fine) b) :
    Comes nextType printer sentinel (fun o => ¬o.Fine) a := by
  induction h using Relation.ReflTransGen.head_induction_on with
  | refl => exact hb
  | head hstep _ ih => exact ih.of_next hnext hstep

end Bad

section Good

variable {nextType : List Char → List Char} {printer : Printer} {sentinel : ℕ}
  {s m : List Char} {p : ℕ} {a b : Place}

variable (nextType printer sentinel) in
/-- A description that comes to no place that is broken. -/
def Unbroken (a : Place) : Prop :=
  ∀ b, Reaches nextType printer sentinel a b → Sound nextType printer sentinel b

theorem Unbroken.of_next (h : Unbroken nextType printer sentinel a)
    (hstep : Next nextType printer sentinel a b) : Unbroken nextType printer sentinel b :=
  fun c hc => h c (.head hstep hc)

/-- Members are described safely, if the first is, and what follows it. -/
theorem comes_fine_members (hnext : SkipsPointer nextType)
    (hunbroken : Unbroken nextType printer sentinel (.members m, p))
    (htype : Unbroken nextType printer sentinel (.type m, p) →
      Comes nextType printer sentinel Outcome.Fine (.type m, p))
    (hshorter : ∀ m' p', m'.length < m.length →
      Unbroken nextType printer sentinel (.members m', p') →
      Comes nextType printer sentinel Outcome.Fine (.members m', p')) :
    Comes nextType printer sentinel Outcome.Fine (.members m, p) := by
  intro fuel k sep any hfuel hk
  obtain ⟨k, rfl⟩ : ∃ n, k = n + 1 := ⟨k - 1, by omega⟩
  rw [structLoop]
  split
  next => exact ⟨_, rfl, .inr rfl⟩
  next hm =>
    refine fine_bind_andThen (htype (hunbroken.of_next (.member hm)) fuel sep hfuel) ?_
    intro p' m' out reads hfirst hp'
    have hdecodes := decodes_of_describe hfirst
    have hroom := hasRoom_iff.mpr ⟨hp', reads, hdecodes⟩
    have hlt : m'.length < m.length := (hdecodes.suffix hnext).2
    exact hshorter m' p' hlt (hunbroken.of_next (.members hm hroom)) fuel k _ _
      (by omega) (by omega)

/-- The elements of an array are described safely, if each is. -/
theorem comes_fine_elements {n : ℕ}
    (hunbroken : Unbroken nextType printer sentinel (.elements (n + 1) m, p))
    (htype : ∀ p, Unbroken nextType printer sentinel (.type m, p) →
      Comes nextType printer sentinel Outcome.Fine (.type m, p)) :
    Comes nextType printer sentinel Outcome.Fine (.elements (n + 1) m, p) := by
  intro fuel sep rest hfuel
  induction n generalizing p sep rest with
  | zero =>
    refine fine_bind_andThen (htype p (hunbroken.of_next .element) fuel sep hfuel) ?_
    intro p' r out reads hfirst hp'
    exact ⟨_, rfl, .inr rfl⟩
  | succ n ih =>
    refine fine_bind_andThen (htype p (hunbroken.of_next .element) fuel sep hfuel) ?_
    intro p' r out reads hfirst hp'
    have hroom := hasRoom_iff.mpr ⟨hp', reads, decodes_of_describe hfirst⟩
    exact ih (hunbroken.of_next (.elements hroom)) _ _

/-- A type is described safely, if what is shorter is. -/
theorem comes_fine_type
    (hunbroken : Unbroken nextType printer sentinel (.type s, p))
    (htype : ∀ m p, m.length < s.length → Unbroken nextType printer sentinel (.type m, p) →
      Comes nextType printer sentinel Outcome.Fine (.type m, p))
    (hmembers : ∀ m p, m.length < s.length → Unbroken nextType printer sentinel (.members m, p) →
      Comes nextType printer sentinel Outcome.Fine (.members m, p)) :
    Comes nextType printer sentinel Outcome.Fine (.type s, p) := by
  intro fuel sep hfuel
  obtain ⟨fuel, rfl⟩ : ∃ k, fuel = k + 1 := ⟨fuel - 1, by omega⟩
  have hsound : SoundType nextType printer sentinel s p := hunbroken _ .refl
  by_cases hnil : s = []
  · subst hnil
    have hp : p = 0 := by
      by_contra hp
      exact hsound.ne_nil hp rfl
    exact ⟨_, rfl, .inl hp⟩
  have hplanned := plan_planned nextType printer sentinel p s
  rw [describe]
  generalize plan nextType printer sentinel p s = q at hplanned ⊢
  cases hplanned with
  | terminator => exact absurd rfl hnil
  | null => exact ⟨_, rfl, trivial⟩
  | leaf => exact ⟨_, rfl, .inr rfl⟩
  | @unprinted kind t hkind =>
    have hsome := hsound.value kind t rfl hkind.1
    rw [hkind.2] at hsome
    contradiction
  | @noTag c t hc ht =>
    have hmem := hsound.tag t (hc.imp (congrArg (· :: t)) (congrArg (· :: t)))
    exact absurd hmem ht
  | struct htag m =>
    simp only [List.length_cons, List.length_append] at hfuel hmembers
    refine fine_map_behind.mpr (hmembers m p (by omega) (hunbroken.of_next (.struct htag)) fuel
      fuel _ _ (by omega) (by omega))
  | @union tag htag m =>
    simp only [List.length_cons, List.length_append] at hfuel htype
    refine fine_map_behind.mpr ?_
    unfold unionMember
    split
    next hm =>
      obtain ⟨m, rfl⟩ : ∃ t, m = ')' :: t := by
        cases m with
        | nil => simp at hm
        | cons c t => exact ⟨t, by simpa using hm⟩
      exact ⟨_, rfl, .inr rfl⟩
    next hm =>
      refine fine_bind_andThen (htype m p (by omega) (hunbroken.of_next (.union htag hm)) fuel _
        (by omega)) ?_
      intro p' r out reads hmember hp'
      have hroom := hasRoom_iff.mpr ⟨hp', reads, decodes_of_describe hmember⟩
      have hclose := hsound.close tag m r p' rfl htag hm hroom
      obtain ⟨skipped, r', rfl, hskipped⟩ := List.eq_append_cons_of_mem hclose
      rw [unionEnd, Option.bind_some, scan_append hskipped]
      exact ⟨_, rfl, .inr rfl⟩
  | @noElements t ht =>
    have hcount := hsound.count t rfl
    omega
  | @array t ht =>
    have hle := (List.dropWhile_suffix (l := t) Char.isDigit).length_le
    rw [List.length_cons] at hfuel htype
    have helements : Comes nextType printer sentinel Outcome.Fine
        (.elements (atoi t).toNat (t.dropWhile Char.isDigit), p) := by
      have hstep := hunbroken.of_next (.array ht)
      obtain ⟨n, hn⟩ : ∃ n, (atoi t).toNat = n + 1 := ⟨(atoi t).toNat - 1, by omega⟩
      rw [hn] at hstep ⊢
      exact comes_fine_elements hstep fun p => htype _ p (by omega)
    refine fine_map_behind.mpr (fine_bind_andThen (helements fuel _ _ (by omega)) ?_)
    intro p' r out reads _ _
    rw [arrayEnd]
    split
    next => exact ⟨_, rfl, .inr rfl⟩
    next => exact ⟨_, rfl, trivial⟩

/-- A description that comes to no broken place is safe. -/
theorem comes_fine (hnext : SkipsPointer nextType) (s : List Char) :
    (∀ p, Unbroken nextType printer sentinel (.type s, p) →
      Comes nextType printer sentinel Outcome.Fine (.type s, p)) ∧
    ∀ p, Unbroken nextType printer sentinel (.members s, p) →
      Comes nextType printer sentinel Outcome.Fine (.members s, p) := by
  induction hn : s.length using Nat.strong_induction_on generalizing s with
  | _ n ih =>
    subst hn
    have htype (p : ℕ) (hunbroken : Unbroken nextType printer sentinel (.type s, p)) :
        Comes nextType printer sentinel Outcome.Fine (.type s, p) :=
      comes_fine_type hunbroken (fun m p hm => (ih _ hm m rfl).1 p)
        (fun m p hm => (ih _ hm m rfl).2 p)
    refine ⟨htype, ?_⟩
    intro p hunbroken
    exact comes_fine_members hnext hunbroken (htype p) fun m' p' hm' => (ih _ hm' m' rfl).2 p'

end Good

/-- `_MulleObjCDescribeMemory` terminates, reads nothing behind the terminator of the type and
uses nothing it has not set. It returns `NULL`, or what it leaves in `*p_type` is the rest of the
type. -/
def Survives (nextType : List Char → List Char) (printer : Printer) (data : Data)
    (type sep : List Char) : Prop :=
  ∃ o, describeData nextType printer data type sep = some o ∧ o ≠ .undefined ∧
    ∀ p rest output reads, o = .done p rest output reads → p ≠ 0 →
      ∃ r, rest = some r ∧ r <:+ type

/-- A description survives exactly the types in which it comes to no place that is broken. -/
theorem survives_iff {nextType : List Char → List Char} {printer : Printer} {data : Data}
    {type sep : List Char} (hnext : SkipsPointer nextType) :
    Survives nextType printer data type sep ↔
      ∀ b, Reaches nextType printer data.sentinel (.type type, data.bytes) b →
        Sound nextType printer data.sentinel b := by
  constructor
  · rintro ⟨o, ho, hdefined, hrest⟩ ⟨t, p⟩ hb
    by_contra hsound
    obtain ⟨s, rfl⟩ : ∃ s, t = .type s := by
      cases t with
      | type s => exact ⟨s, rfl⟩
      | members | elements => exact absurd trivial hsound
    have hcomes := Comes.of_reaches hnext hb (comes_not_fine_of_not_sound hnext hsound)
    obtain ⟨o', ho', hfine⟩ := hcomes (type.length + 1) sep (Nat.lt_succ_self _)
    obtain rfl : o = o' := Option.some.inj (ho.symm.trans ho')
    apply hfine
    rcases o with _ | _ | ⟨p, rest, output, reads⟩
    · exact hdefined rfl
    · trivial
    · by_cases hp : p = 0
      · exact .inl hp
      · obtain ⟨r, rfl, _⟩ := hrest p rest output reads rfl hp
        exact .inr rfl
  · intro hunbroken
    obtain ⟨o, ho, hfine⟩ := (comes_fine hnext type).1 data.bytes hunbroken (type.length + 1) sep
      (Nat.lt_succ_self _)
    refine ⟨o, ho, ?_, ?_⟩
    · rintro rfl
      exact hfine
    · rintro p rest output reads rfl hp
      obtain ⟨r, rfl⟩ := Option.isSome_iff_exists.mp (hfine.resolve_left hp)
      exact ⟨r, rfl, ((decodes_of_describe ho).suffix hnext).1⟩

theorem skipsPointer_skipType : SkipsPointer skipType := skipType_suffix

/-- A closing bracket is no type. It is reported. -/
theorem kaputt_survives :
    Survives skipType (.letter 'x') ⟨16, 8⟩ "]kaputt[".toList [] := by
  refine (survives_iff skipsPointer_skipType).mpr ?_
  intro b hb
  obtain rfl | ⟨b', hstep, _⟩ := Relation.ReflTransGen.cases_head hb
  · constructor
    · simp
    · intro kind t ht
      have hcode : ']' = kind.code := (List.cons.inj ht).1
      rcases kind with scalar | _
      · cases scalar <;> cases hcode
      · cases hcode
    · simp
    · simp
    · simp
  · cases hstep

/-- Memory without a pointer that leads anywhere. -/
def numbers : Printer where
  text r := if r.address = 0 ∨ r.kind.isFollowed = true then none else some ['x']
  text_null _ hr := if_pos (.inl hr)
  isSome_text r hr hkind := by simp [hr, hkind]

/-- In a struct that is not closed the loop goes on behind the terminator, and so does the search
for a missing `=`. An array without elements uses a pointer that is not set, and a `char *` is
printed wherever it leads. -/
theorem broken_types_do_not_survive :
    ¬Survives skipType (.letter 'x') ⟨16, 8⟩ "\x7babc=i".toList [] ∧
      ¬Survives skipType (.letter 'x') ⟨16, 8⟩ "\x7babc".toList [] ∧
      ¬Survives skipType (.letter 'x') ⟨16, 8⟩ "[0i]".toList [] ∧
      ¬Survives skipType numbers ⟨16, 8⟩ ['*'] [] := by
  have hundefined {printer : Printer} {type : List Char}
      (h : describeData skipType printer ⟨16, 8⟩ type [] = some .undefined) :
      ¬Survives skipType printer ⟨16, 8⟩ type [] := by
    rintro ⟨o, ho, hdefined, _⟩
    exact hdefined (Option.some.inj (ho.symm.trans h))
  exact ⟨hundefined (by decide), hundefined (by decide), hundefined (by decide),
    hundefined (by decide)⟩

end MulleObjC.Describe
