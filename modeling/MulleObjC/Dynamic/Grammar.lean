import MulleObjC.Dynamic.Forward
import MulleObjC.Library.Terminated

/-!
# The grammar of accessor names

`accessor_type_from_string` moves a pointer through the name. It stays in front of the
terminator or on it, and it accepts the names of getters, setters, adders and removers and
nothing else.
-/

namespace MulleObjC.Dynamic

/-- What some accessor names start with, followed by an uppercase verb. -/
def mulle : List Char := ['m', 'u', 'l', 'l', 'e']

/-- `accessor_type_from_string` from the start of the name on, if its only colon is its last
character; `none` is a read behind the terminator. -/
def accessorTypeOfArgumentAt (name : List Char) : Option AccessorType :=
  (Terminated.strncmp '\x00' name mulle 0).bind fun expectUppercase =>
    let s := if expectUppercase then 5 else 0
    (Terminated.read '\x00' name s).bind fun c =>
      match accessorPrefix expectUppercase c with
      | none => some .invalid
      | some (cmp, accessorType) =>
        (Terminated.strncmp '\x00' name cmp (s + 1)).bind fun found =>
          if found then
            (Terminated.read '\x00' name (s + 1 + cmp.length)).bind fun c =>
              if c < 'A' ∨ 'Z' < c then some .invalid else some accessorType
          else some .invalid

/-- `accessor_type_from_string`; `none` is a read behind the terminator. -/
def accessorTypeFromStringAt (name : List Char) : Option AccessorType :=
  match Terminated.strchr name ':' with
  | none => some .getter
  | some sArg =>
    (Terminated.read '\x00' name (sArg + 1)).bind fun behind =>
      -- The terminator must be behind the colon.
      if behind ≠ '\x00' then some .invalid else accessorTypeOfArgumentAt name

/-- The words in front of the property in the name of an accessor. -/
def AccessorType.verbs : AccessorType → List (List Char)
  | .setter => [['s', 'e', 't'], mulle ++ ['S', 'e', 't']]
  | .adder => [['a', 'd', 'd', 'T', 'o'], mulle ++ ['A', 'd', 'd', 'T', 'o']]
  | .remover =>
    [['r', 'e', 'm', 'o', 'v', 'e', 'F', 'r', 'o', 'm'],
      mulle ++ ['R', 'e', 'm', 'o', 'v', 'e', 'F', 'r', 'o', 'm']]
  | .getter => []
  | .invalid => []

/-- The name starts with a verb and an uppercase letter. -/
def StartsWithVerb (type : AccessorType) (name : List Char) : Prop :=
  ∃ verb ∈ type.verbs, ∃ c, ('A' ≤ c ∧ c ≤ 'Z') ∧ verb ++ [c] <+: name

/-- The only colon is the last character. -/
def HasOneArgument (name : List Char) : Prop := ∃ front, name = front ++ [':'] ∧ ':' ∉ front

/-- What `accessor_type_from_string` does with a name that has one argument. -/
def accessorTypeOfArgument (name : List Char) : AccessorType :=
  let expectUppercase := mulle.isPrefixOf name
  match if expectUppercase then name.drop 5 else name with
  | [] => .invalid
  | c :: s =>
    match accessorPrefix expectUppercase c with
    | none => .invalid
    | some (cmp, accessorType) =>
      if cmp.isPrefixOf s then
        match s.drop cmp.length with
        | [] => .invalid
        | c :: _ => if 'A' ≤ c ∧ c ≤ 'Z' then accessorType else .invalid
      else .invalid

section Colon

variable {name front after : List Char}

theorem dropWhile_colon (hfront : ':' ∉ front) :
    (front ++ ':' :: after).dropWhile (· ≠ ':') = ':' :: after := by
  rw [List.dropWhile_append_of_pos]
  · simp
  · intro c hc
    simpa using ne_of_mem_of_not_mem hc hfront

theorem accessorTypeFromString_of_notMem (hname : ':' ∉ name) :
    accessorTypeFromString name = .getter := by
  have hdrop : name.dropWhile (· ≠ ':') = [] := by
    rw [List.dropWhile_eq_nil_iff]
    intro c hc
    simpa using ne_of_mem_of_not_mem hc hname
  rw [accessorTypeFromString, hdrop]

theorem accessorTypeFromString_of_behind (hfront : ':' ∉ front) (hafter : after ≠ []) :
    accessorTypeFromString (front ++ ':' :: after) = .invalid := by
  rw [accessorTypeFromString, dropWhile_colon hfront]
  cases after with
  | nil => exact absurd rfl hafter
  | cons c after => rfl

theorem accessorTypeFromString_of_argument (hfront : ':' ∉ front) :
    accessorTypeFromString (front ++ [':']) = accessorTypeOfArgument (front ++ [':']) := by
  rw [accessorTypeFromString, dropWhile_colon hfront]
  rfl

end Colon

section Verb

/-- The pointer behind the `mulle` that may be there. -/
theorem exists_start (name : List Char) : ∃ start rest, name = start ++ rest ∧
    start = (if mulle.isPrefixOf name then mulle else []) ∧
    rest = if mulle.isPrefixOf name then name.drop 5 else name := by
  by_cases hmulle : mulle.isPrefixOf name = true
  · obtain ⟨t, rfl⟩ := List.isPrefixOf_iff_prefix.mp hmulle
    rw [if_pos hmulle, if_pos hmulle]
    exact ⟨mulle, t, rfl, rfl, rfl⟩
  · rw [if_neg hmulle, if_neg hmulle]
    exact ⟨[], name, rfl, rfl, rfl⟩

variable {expectUppercase : Bool} {c : Char} {cmp : List Char} {type : AccessorType}

/-- What the switch finds is the rest of a verb. -/
theorem accessorPrefix_eq_some (h : accessorPrefix expectUppercase c = some (cmp, type)) :
    (if expectUppercase then mulle else []) ++ c :: cmp ∈ type.verbs := by
  by_cases hs : c = if expectUppercase then 'S' else 's'
  · rw [accessorPrefix, if_pos hs] at h
    obtain ⟨rfl, rfl⟩ := Prod.mk.inj (Option.some.inj h)
    rw [hs]
    cases expectUppercase <;> decide
  by_cases ha : c = if expectUppercase then 'A' else 'a'
  · rw [accessorPrefix, if_neg hs, if_pos ha] at h
    obtain ⟨rfl, rfl⟩ := Prod.mk.inj (Option.some.inj h)
    rw [ha]
    cases expectUppercase <;> decide
  by_cases hr : c = if expectUppercase then 'R' else 'r'
  · rw [accessorPrefix, if_neg hs, if_neg ha, if_pos hr] at h
    obtain ⟨rfl, rfl⟩ := Prod.mk.inj (Option.some.inj h)
    rw [hr]
    cases expectUppercase <;> decide
  · rw [accessorPrefix, if_neg hs, if_neg ha, if_neg hr] at h
    cases h

theorem nul_notMem_of_mem_verbs {verb : List Char} (h : verb ∈ type.verbs) : '\x00' ∉ verb := by
  cases type <;> revert verb <;> decide

theorem nul_notMem_of_accessorPrefix (h : accessorPrefix expectUppercase c = some (cmp, type)) :
    '\x00' ∉ cmp := by
  intro hmem
  apply nul_notMem_of_mem_verbs (accessorPrefix_eq_some h)
  exact List.mem_append_right _ (List.mem_cons_of_mem c hmem)

/-- A verb and an uppercase letter are enough. -/
theorem accessorTypeOfArgument_of_verb {verb rest : List Char} (hverb : verb ∈ type.verbs)
    (hc : 'A' ≤ c ∧ c ≤ 'Z') : accessorTypeOfArgument (verb ++ c :: rest) = type := by
  cases type with
  | invalid => exact absurd hverb List.not_mem_nil
  | getter => exact absurd hverb List.not_mem_nil
  | setter =>
    rcases List.mem_pair.mp hverb with rfl | rfl
    · exact if_pos hc
    · exact if_pos hc
  | adder =>
    rcases List.mem_pair.mp hverb with rfl | rfl
    · exact if_pos hc
    · exact if_pos hc
  | remover =>
    rcases List.mem_pair.mp hverb with rfl | rfl
    · exact if_pos hc
    · exact if_pos hc

/-- A verb and an uppercase letter are needed. -/
theorem startsWithVerb_of_accessorTypeOfArgument {name : List Char}
    (h : accessorTypeOfArgument name = type) (htype : type ≠ .invalid) :
    StartsWithVerb type name := by
  obtain ⟨start, rest, hname, hstart, hrest⟩ := exists_start name
  rw [accessorTypeOfArgument] at h
  rw [← hrest] at h
  cases rest with
  | nil => exact absurd h.symm htype
  | cons c s =>
    dsimp only at h
    cases hlookup : accessorPrefix (mulle.isPrefixOf name) c with
    | none =>
      rw [hlookup] at h
      exact absurd h.symm htype
    | some found =>
      obtain ⟨cmp, accessorType⟩ := found
      rw [hlookup] at h
      dsimp only at h
      by_cases hcmp : cmp.isPrefixOf s = true
      · obtain ⟨t, rfl⟩ := List.isPrefixOf_iff_prefix.mp hcmp
        rw [if_pos hcmp, List.drop_left] at h
        cases t with
        | nil => exact absurd h.symm htype
        | cons d t =>
          dsimp only at h
          by_cases hd : 'A' ≤ d ∧ d ≤ 'Z'
          · rw [if_pos hd] at h
            rw [← h]
            refine ⟨_, accessorPrefix_eq_some hlookup, d, hd, t, ?_⟩
            rw [← hstart, hname]
            simp
          · rw [if_neg hd] at h
            exact absurd h.symm htype
      · rw [if_neg hcmp] at h
        exact absurd h.symm htype

theorem accessorTypeOfArgument_eq_iff {name : List Char} (htype : type ≠ .invalid) :
    accessorTypeOfArgument name = type ↔ StartsWithVerb type name := by
  constructor
  · intro h
    exact startsWithVerb_of_accessorTypeOfArgument h htype
  · rintro ⟨verb, hverb, c, hc, rest, rfl⟩
    rw [List.append_assoc, List.singleton_append]
    exact accessorTypeOfArgument_of_verb hverb hc

end Verb

section Reads

variable {name : List Char}

theorem not_uppercase_iff {c : Char} : (c < 'A' ∨ 'Z' < c) ↔ ¬ ('A' ≤ c ∧ c ≤ 'Z') := by
  rw [not_and_or, Char.not_le, Char.not_le]

theorem accessorPrefix_nul (expectUppercase : Bool) :
    accessorPrefix expectUppercase '\x00' = none := by
  cases expectUppercase <;> decide

/-- Where the terminator cuts a verb short, the comparison stops. -/
theorem accessorTypeOfArgumentAt_eq (name : List Char) :
    accessorTypeOfArgumentAt name = some (accessorTypeOfArgument name) := by
  obtain ⟨start, rest, hname, hstart, hrest⟩ := exists_start name
  have hlen : start.length = if mulle.isPrefixOf name then 5 else 0 := by
    rw [hstart]
    split <;> rfl
  have hmulle : Terminated.strncmp '\x00' name mulle 0 = some (mulle.isPrefixOf name) :=
    Terminated.strncmp_append (by decide) [] name
  rw [accessorTypeOfArgumentAt, hmulle, Option.bind_some, accessorTypeOfArgument]
  dsimp only
  rw [← hlen, ← hrest]
  generalize mulle.isPrefixOf name = expectUppercase
  rw [hname, Terminated.read_append_length, Option.bind_some]
  cases rest with
  | nil =>
    rw [List.headD_nil, accessorPrefix_nul]
  | cons c s =>
    rw [List.headD_cons]
    dsimp only
    cases hlookup : accessorPrefix expectUppercase c with
    | none => rfl
    | some found =>
      obtain ⟨cmp, accessorType⟩ := found
      dsimp only
      have hcmp : Terminated.strncmp '\x00' (start ++ c :: s) cmp (start.length + 1) =
          some (cmp.isPrefixOf s) :=
        Terminated.strncmp_of_split (nul_notMem_of_accessorPrefix hlookup) (start ++ [c]) s
          (by simp) (by simp)
      rw [hcmp, Option.bind_some]
      by_cases hfound : cmp.isPrefixOf s = true
      · obtain ⟨t, rfl⟩ := List.isPrefixOf_iff_prefix.mp hfound
        have hread : Terminated.read '\x00' (start ++ c :: (cmp ++ t))
            (start.length + 1 + cmp.length) = some (t.headD '\x00') :=
          Terminated.read_of_split (start ++ c :: cmp) t (by simp) (by simp; omega)
        rw [if_pos hfound, if_pos hfound, hread, Option.bind_some, List.drop_left]
        cases t with
        | nil => rfl
        | cons d t =>
          rw [List.headD_cons]
          dsimp only
          by_cases hd : 'A' ≤ d ∧ d ≤ 'Z'
          · rw [if_pos hd, if_neg (not_uppercase_iff.not.mpr (not_not.mpr hd))]
          · rw [if_neg hd, if_pos (not_uppercase_iff.mpr hd)]
      · rw [if_neg hfound, if_neg hfound]

/-- The function stays inside the name. -/
theorem accessorTypeFromStringAt_eq (hname : '\x00' ∉ name) :
    accessorTypeFromStringAt name = some (accessorTypeFromString name) := by
  rw [accessorTypeFromStringAt]
  cases hchr : Terminated.strchr name ':' with
  | none =>
    rw [accessorTypeFromString_of_notMem (Terminated.strchr_eq_none_iff.mp hchr)]
  | some sArg =>
    obtain ⟨front, after, rfl, rfl, hfront⟩ := Terminated.strchr_eq_some hchr
    have hread : Terminated.read '\x00' (front ++ ':' :: after) (front.length + 1) =
        some (after.headD '\x00') :=
      Terminated.read_of_split (front ++ [':']) after (by simp) (by simp)
    dsimp only
    rw [hread, Option.bind_some]
    cases after with
    | nil =>
      rw [List.headD_nil, if_neg (by decide), accessorTypeFromString_of_argument hfront]
      exact accessorTypeOfArgumentAt_eq _
    | cons c after =>
      have hc : c ≠ '\x00' := by
        rintro rfl
        exact hname (by simp)
      rw [List.headD_cons, if_pos hc, accessorTypeFromString_of_behind hfront (by simp)]

end Reads

/-- The three kinds of names with an argument that the function accepts. -/
def IsAccessorName (type : AccessorType) (name : List Char) : Prop :=
  HasOneArgument name ∧ StartsWithVerb type name

theorem accessorTypeFromString_eq_getter_iff {name : List Char} :
    accessorTypeFromString name = .getter ↔ ':' ∉ name := by
  constructor
  · intro h hmem
    obtain ⟨sArg, hchr⟩ := Option.ne_none_iff_exists'.mp
      fun hnone => Terminated.strchr_eq_none_iff.mp hnone hmem
    obtain ⟨front, after, rfl, -, hfront⟩ := Terminated.strchr_eq_some hchr
    by_cases hafter : after = []
    · rw [hafter, accessorTypeFromString_of_argument hfront,
        accessorTypeOfArgument_eq_iff (by decide)] at h
      obtain ⟨verb, hverb, -⟩ := h
      exact absurd hverb List.not_mem_nil
    · rw [accessorTypeFromString_of_behind hfront hafter] at h
      cases h
  · exact accessorTypeFromString_of_notMem

/-- The names of setters, adders and removers have one argument and start with the verb. -/
theorem accessorTypeFromString_eq_iff {name : List Char} {type : AccessorType}
    (hinvalid : type ≠ .invalid) (hgetter : type ≠ .getter) :
    accessorTypeFromString name = type ↔ IsAccessorName type name := by
  constructor
  · intro h
    have hmem : ':' ∈ name := by
      by_contra hmem
      exact hgetter (h.symm.trans (accessorTypeFromString_of_notMem hmem))
    obtain ⟨sArg, hchr⟩ := Option.ne_none_iff_exists'.mp
      fun hnone => Terminated.strchr_eq_none_iff.mp hnone hmem
    obtain ⟨front, after, rfl, -, hfront⟩ := Terminated.strchr_eq_some hchr
    by_cases hafter : after = []
    · subst hafter
      rw [accessorTypeFromString_of_argument hfront,
        accessorTypeOfArgument_eq_iff hinvalid] at h
      exact ⟨⟨front, rfl, hfront⟩, h⟩
    · rw [accessorTypeFromString_of_behind hfront hafter] at h
      exact absurd h.symm hinvalid
  · rintro ⟨⟨front, rfl, hfront⟩, hverb⟩
    rw [accessorTypeFromString_of_argument hfront]
    exact (accessorTypeOfArgument_eq_iff hinvalid).mpr hverb

/-- The answer `type` for a name is that of the grammar. -/
structure IsAnswer (name : List Char) (type : AccessorType) : Prop where
  /-- Names without a colon are those of getters. -/
  getter : type = .getter ↔ ':' ∉ name
  setter : type = .setter ↔ IsAccessorName .setter name
  adder : type = .adder ↔ IsAccessorName .adder name
  remover : type = .remover ↔ IsAccessorName .remover name
  /-- All other names are invalid. -/
  invalid : type = .invalid ↔ ':' ∈ name ∧ ¬ IsAccessorName .setter name ∧
    ¬ IsAccessorName .adder name ∧ ¬ IsAccessorName .remover name

theorem isAnswer_accessorTypeFromString (name : List Char) :
    IsAnswer name (accessorTypeFromString name) := by
  have hgetter := @accessorTypeFromString_eq_getter_iff name
  have hsetter := @accessorTypeFromString_eq_iff name .setter (by decide) (by decide)
  have hadder := @accessorTypeFromString_eq_iff name .adder (by decide) (by decide)
  have hremover := @accessorTypeFromString_eq_iff name .remover (by decide) (by decide)
  refine ⟨hgetter, hsetter, hadder, hremover, ?_⟩
  rw [← hsetter, ← hadder, ← hremover, ← not_not (a := ':' ∈ name), ← hgetter]
  cases accessorTypeFromString name <;> simp

/-- `accessor_type_from_string` decides the grammar, and for no name reads a character behind
the terminator. -/
theorem accessorTypeFromStringAt_decides (name : List Char) (hname : '\x00' ∉ name) :
    ∃ type, accessorTypeFromStringAt name = some type ∧ IsAnswer name type :=
  ⟨accessorTypeFromString name, accessorTypeFromStringAt_eq hname,
    isAnswer_accessorTypeFromString name⟩

/-- `mulleAddToFoo:` -/
def mulleAddToFoo : List Char := mulle ++ ['A', 'd', 'd', 'T', 'o', 'F', 'o', 'o', ':']

theorem accessorTypeFromStringAt_decides_mulleAddToFoo :
    accessorTypeFromStringAt mulleAddToFoo = some .adder ∧
      ∃ type, accessorTypeFromStringAt mulleAddToFoo = some type ∧ IsAnswer mulleAddToFoo type :=
  ⟨by decide, accessorTypeFromStringAt_decides mulleAddToFoo (by decide)⟩

/-- `create_fake_accessor` makes descriptors for the names of getters and setters only. -/
theorem createFakeAccessor_isSome_iff {Sel : Type*} {methodid : Sel} {name : List Char} :
    (Universe.createFakeAccessor methodid name).isSome = true ↔
      ':' ∉ name ∨ IsAccessorName .setter name := by
  have h := isAnswer_accessorTypeFromString name
  rw [← h.getter, ← h.setter, Universe.createFakeAccessor]
  cases accessorTypeFromString name <;> simp

end MulleObjC.Dynamic
