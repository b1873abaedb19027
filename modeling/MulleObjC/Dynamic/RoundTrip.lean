import Mathlib.Data.List.TakeWhile
import MulleObjC.Dynamic.Grammar
import MulleObjC.Enum.Table

/-!
# Accessor names and back

`create_setter_from_getter` and `create_getter_from_setter` write the name they make into a
buffer from `calloc`, byte by byte. The length of the buffer and the indices are computed by
hand: right for `set`, wrong for `mulleSet`.
-/

namespace MulleObjC.Dynamic

open MulleObjC.Enum (isIdentifierChar)

/-- The byte that ends a string. -/
def zero : Char := '\x00'

/-- `calloc( 1, n)` -/
def calloc (n : ℕ) : List Char := List.replicate n zero

/-- The bytes are written to `&buffer[ i]`. `none` is a write behind the end of the buffer. -/
def write (buffer : List Char) (i : ℕ) (bytes : List Char) : Option (List Char) :=
  if i + bytes.length ≤ buffer.length then
    some (buffer.take i ++ bytes ++ buffer.drop (i + bytes.length))
  else none

/-- `strcpy( buffer, s)` -/
def strcpy (buffer s : List Char) : Option (List Char) := write buffer 0 (s ++ [zero])

/-- `strcat( buffer, s)` -/
def strcat (buffer s : List Char) : Option (List Char) :=
  write buffer (cString buffer).length (s ++ [zero])

section Buffer

variable {front back bytes s : List Char} {n : ℕ}

/-- A write behind what is in front of it. -/
theorem write_append (front back bytes : List Char) :
    write (front ++ back) front.length bytes = (write back 0 bytes).map (front ++ ·) := by
  unfold write
  by_cases hfits : bytes.length ≤ back.length
  · rw [if_pos (by rw [List.length_append]; omega), if_pos (by omega)]
    simp [List.drop_append]
  · rw [if_neg (by rw [List.length_append]; omega), if_neg (by omega)]
    rfl

theorem write_calloc (hfits : bytes.length ≤ n) :
    write (calloc n) 0 bytes = some (bytes ++ calloc (n - bytes.length)) := by
  simp [write, calloc, hfits]

theorem write_calloc_eq_none (hlong : n < bytes.length) : write (calloc n) 0 bytes = none := by
  simp [write, calloc, hlong]

theorem cString_append_zero (hs : zero ∉ s) (rest : List Char) :
    cString (s ++ zero :: rest) = s := by
  unfold cString
  rw [List.takeWhile_append_of_pos]
  · simp [zero]
  · intro c hc
    simp only [ne_eq, decide_eq_true_eq]
    rintro rfl
    exact hs hc

/-- The zeros of `calloc` end a string that leaves room for one. -/
theorem cString_append_calloc (hs : zero ∉ s) (hn : 0 < n) : cString (s ++ calloc n) = s := by
  obtain ⟨n, rfl⟩ : ∃ k, n = k + 1 := ⟨n - 1, by omega⟩
  exact cString_append_zero hs (calloc n)

/-- The zero behind the string is one of those from `calloc`. -/
theorem append_zero_calloc (hn : s.length < n) :
    s ++ [zero] ++ calloc (n - (s ++ [zero]).length) = s ++ calloc (n - s.length) := by
  have hlength : n - s.length = n - (s ++ [zero]).length + 1 := by
    rw [List.length_append, List.length_singleton]
    omega
  rw [hlength, calloc, calloc, List.replicate_succ, List.append_assoc, List.singleton_append]

theorem strcpy_calloc (hs : s.length < n) :
    strcpy (calloc n) s = some (s ++ calloc (n - s.length)) := by
  rw [strcpy, write_calloc (by rw [List.length_append, List.length_singleton]; omega),
    append_zero_calloc hs]

/-- `strcat` has to find room for the string and its zero. -/
theorem strcat_append (hfront : zero ∉ front) (hn : s.length < n) :
    strcat (front ++ calloc n) s = some (front ++ s ++ calloc (n - s.length)) := by
  rw [strcat, cString_append_calloc hfront (by omega), write_append,
    write_calloc (by rw [List.length_append, List.length_singleton]; omega),
    append_zero_calloc hn, Option.map_some, List.append_assoc]

theorem strcat_append_eq_none (hfront : zero ∉ front) (hpos : 0 < n) (hn : n ≤ s.length) :
    strcat (front ++ calloc n) s = none := by
  rw [strcat, cString_append_calloc hfront hpos, write_append,
    write_calloc_eq_none (by rw [List.length_append, List.length_singleton]; omega),
    Option.map_none]

end Buffer

/-- The buffer with the name in `create_getter_from_setter`. A name that is too short for its
prefix and a colon makes the `size_t` for `memcpy` wrap around. -/
def createGetterName (setter : List Char) : Option (List Char) :=
  let len := setter.length
  if len < (if setter.headD zero = 's' then 3 else 8) + 1 then none
  else if setter.headD zero = 's' then
    (write (calloc len) 0 ((setter.drop 3).take (len - 3 - 1))).bind fun name =>
      write name 0 [lowered (name.headD zero)]
  else
    (write (calloc len) 0 (setter.take 5)).bind fun name =>
      (write name 5 ((setter.drop 8).take (len - 8 - 1))).bind fun name =>
        write name 8 [lowered (name.headD zero)]

/-- `! strncmp( name, "mulle", 5) && isupper( name[ 5])` -/
def isMulle (name : List Char) : Bool :=
  ['m', 'u', 'l', 'l', 'e'].isPrefixOf name && ((name.drop 5).headD zero).isUpper

/-- The buffer with the name in `create_setter_from_getter`. -/
def createSetterName (getter : List Char) : Option (List Char) :=
  let start := if isMulle getter then ['m', 'u', 'l', 'l', 'e', 'S', 'e', 't'] else ['s', 'e', 't']
  let i := if isMulle getter then 8 else 3
  (strcpy (calloc (3 + getter.length + 1 + 1)) start).bind fun name =>
    (strcat name getter).bind fun name =>
      (strcat name [':']).bind fun name =>
        write name i [(name.getD i zero).toUpper]

/-- What a setter is named after: an uppercase letter with the rest of an identifier. -/
structure Suffix where
  first : Char
  rest : List Char
  first_isUpper : first.isUpper = true
  rest_isIdentifier : ∀ c ∈ rest, isIdentifierChar c = true

/-- The name of a property: a C identifier with a lowercase first letter. -/
structure PropertyName where
  first : Char
  rest : List Char
  first_isLower : first.isLower = true
  rest_isIdentifier : ∀ c ∈ rest, isIdentifierChar c = true

/-- The characters of the suffix. -/
def Suffix.chars (x : Suffix) : List Char := x.first :: x.rest

/-- The characters of the name. -/
def PropertyName.chars (n : PropertyName) : List Char := n.first :: n.rest

/-- `setX:` -/
def Suffix.setter (x : Suffix) : List Char := ['s', 'e', 't'] ++ x.chars ++ [':']

/-- `mulleSetX:` -/
def Suffix.mulleSetter (x : Suffix) : List Char :=
  ['m', 'u', 'l', 'l', 'e', 'S', 'e', 't'] ++ x.chars ++ [':']

/-- A name is made in its buffer, with its zero, and is that of an accessor of the type. -/
def Makes (buffer : Option (List Char)) (name : List Char) (type : AccessorType) : Prop :=
  ∃ bytes, buffer = some bytes ∧ zero ∈ bytes ∧ cString bytes = name ∧
    accessorTypeFromString name = type

/-- `x` becomes `setX:`, and `mulleX` becomes `mulleSetX:`. -/
def setterOf (getter : List Char) : List Char :=
  if isMulle getter then ['m', 'u', 'l', 'l', 'e', 'S', 'e', 't'] ++ getter.drop 5 ++ [':']
  else ['s', 'e', 't'] ++ (getter.headD zero).toUpper :: getter.drop 1 ++ [':']

/-- The setter of a getter is made, and its getter again. -/
def GetterRoundTrips (getter : List Char) : Prop :=
  Makes (createSetterName getter) (setterOf getter) .setter ∧
    Makes (createGetterName (setterOf getter)) getter .getter

/-- The getter of a setter is made, and its setter again. -/
def SetterRoundTrips (setter : List Char) : Prop :=
  Makes (createGetterName setter) (valueName setter) .getter ∧
    Makes (createSetterName (valueName setter)) setter .setter

section Characters

theorem of_ascii {P : Char → Prop} (h : ∀ n < 128, P (Char.ofNat n)) {c : Char}
    (hc : c.toNat < 128) : P c := by
  have hchar := h c.toNat hc
  rwa [Char.ofNat_toNat] at hchar

theorem isUpper_iff {c : Char} : c.isUpper = true ↔ 'A' ≤ c ∧ c ≤ 'Z' := decide_eq_true_iff

theorem toNat_lt_of_isUpper {c : Char} (hc : c.isUpper = true) : c.toNat < 128 := by
  have hle : c.toNat ≤ 90 := (isUpper_iff.mp hc).2
  omega

theorem toNat_lt_of_isLower {c : Char} (hc : c.isLower = true) : c.toNat < 128 := by
  have hle : c.toNat ≤ 122 := of_decide_eq_true (Bool.and_eq_true_iff.mp hc).2
  omega

theorem isUpper_toUpper {c : Char} (hc : c.isLower = true) : c.toUpper.isUpper = true :=
  of_ascii (P := fun c => c.isLower = true → c.toUpper.isUpper = true) (by decide)
    (toNat_lt_of_isLower hc) hc

theorem toUpper_toLower {c : Char} (hc : c.isUpper = true) : c.toLower.toUpper = c :=
  of_ascii (P := fun c => c.isUpper = true → c.toLower.toUpper = c) (by decide)
    (toNat_lt_of_isUpper hc) hc

theorem lowered_toUpper {c : Char} (hc : c.isLower = true) : lowered c.toUpper = c :=
  of_ascii (P := fun c => c.isLower = true → lowered c.toUpper = c) (by decide)
    (toNat_lt_of_isLower hc) hc

theorem isLower_toLower {c : Char} (hc : c.isUpper = true) : c.toLower.isLower = true :=
  of_ascii (P := fun c => c.isUpper = true → c.toLower.isLower = true) (by decide)
    (toNat_lt_of_isUpper hc) hc

/-- No separator and no zero. -/
def Plain (s : List Char) : Prop := ∀ c ∈ s, c ≠ ':' ∧ c ≠ zero

theorem plain_of_isIdentifier {s : List Char} (hs : ∀ c ∈ s, isIdentifierChar c = true) :
    Plain s := by
  intro c hc
  have hident := hs c hc
  constructor <;> rintro rfl <;> revert hident <;> decide

theorem plain_cons {c : Char} {s : List Char} (hc : isIdentifierChar c = true)
    (hs : ∀ d ∈ s, isIdentifierChar d = true) : Plain (c :: s) := by
  apply plain_of_isIdentifier
  intro d hd
  rcases List.mem_cons.mp hd with rfl | hd
  · exact hc
  · exact hs d hd

theorem isIdentifierChar_of_isUpper {c : Char} (hc : c.isUpper = true) :
    isIdentifierChar c = true := by
  have halpha : c.isAlpha = true := Bool.or_eq_true_iff.mpr (.inl hc)
  simp [isIdentifierChar, Char.isAlphanum, halpha]

theorem isIdentifierChar_of_isLower {c : Char} (hc : c.isLower = true) :
    isIdentifierChar c = true := by
  have halpha : c.isAlpha = true := Bool.or_eq_true_iff.mpr (.inr hc)
  simp [isIdentifierChar, Char.isAlphanum, halpha]

theorem Plain.zero_notMem {s : List Char} (hs : Plain s) : zero ∉ s :=
  fun hmem => (hs _ hmem).2 rfl

end Characters

theorem Plain.colon_notMem {s : List Char} (hs : Plain s) : ':' ∉ s :=
  fun hmem => (hs _ hmem).1 rfl

/-- `accessor_type_from_string` takes a name without a colon for a getter. -/
theorem accessorTypeFromString_plain {s : List Char} (hs : Plain s) :
    accessorTypeFromString s = .getter :=
  accessorTypeFromString_of_notMem hs.colon_notMem

theorem plain_set {s : List Char} (hs : Plain s) : Plain (['s', 'e', 't'] ++ s) := by
  have hset : ∀ c ∈ ['s', 'e', 't'], c ≠ ':' ∧ c ≠ zero := by simp [zero]
  intro c hc
  rcases List.mem_append.mp hc with hc | hc
  · exact hset c hc
  · exact hs c hc

/-- It accepts `setX:`. -/
theorem accessorTypeFromString_set {c : Char} {s : List Char} (hc : c.isUpper = true)
    (hs : Plain (c :: s)) :
    accessorTypeFromString (['s', 'e', 't'] ++ c :: s ++ [':']) = .setter := by
  rw [accessorTypeFromString_of_argument (plain_set hs).colon_notMem, List.append_assoc,
    List.cons_append]
  have hverb : ['s', 'e', 't'] ∈ AccessorType.setter.verbs := List.mem_cons_self
  exact accessorTypeOfArgument_of_verb hverb (isUpper_iff.mp hc)

/-- A name that stays in its buffer is made. -/
theorem makes_append_calloc {name : List Char} {n : ℕ} {type : AccessorType} (hname : zero ∉ name)
    (hn : 0 < n) (htype : accessorTypeFromString name = type) :
    Makes (some (name ++ calloc n)) name type := by
  refine ⟨name ++ calloc n, rfl, ?_, cString_append_calloc hname hn, htype⟩
  rw [calloc, List.mem_append, List.mem_replicate]
  exact .inr ⟨by omega, rfl⟩

@[simp] theorem write_head (c d : Char) (s : List Char) :
    write (c :: s) 0 [d] = some (d :: s) := by
  simp [write]

section Setter

variable {c : Char} {s : List Char}

/-- The setter of a name without `mulle` fills its buffer. -/
theorem createSetterName_eq (hmulle : isMulle (c :: s) = false) (hs : Plain (c :: s)) :
    createSetterName (c :: s) = some (['s', 'e', 't'] ++ c.toUpper :: s ++ [':'] ++ calloc 1) := by
  have hset : zero ∉ ['s', 'e', 't'] := by decide
  have hlength : 3 + (c :: s).length + 1 + 1 - 3 - (c :: s).length - 1 = 1 := by omega
  rw [createSetterName]
  simp only [hmulle, Bool.false_eq_true, if_false]
  rw [strcpy_calloc (by simp only [List.length_cons, List.length_nil]; omega), Option.bind_some,
    strcat_append hset (by simp only [List.length_cons, List.length_nil]; omega),
    Option.bind_some, strcat_append (plain_set hs).zero_notMem
      (by simp only [List.length_cons, List.length_nil]; omega), Option.bind_some]
  simp only [List.length_cons, List.length_nil] at hlength ⊢
  rw [hlength]
  exact (write_append ['s', 'e', 't'] (c :: (s ++ [':'] ++ calloc 1)) [c.toUpper]).trans (by simp)

/-- The buffer has room for `set` in front of the name, but none for `mulleSet`. -/
theorem createSetterName_eq_none {getter : List Char} (hmulle : isMulle getter = true) :
    createSetterName getter = none := by
  obtain ⟨hnamed, hupper⟩ := Bool.and_eq_true_iff.mp hmulle
  obtain ⟨rest, rfl⟩ := List.isPrefixOf_iff_prefix.mp hnamed
  cases rest with
  | nil => exact absurd hupper (by decide)
  | cons c rest =>
    rw [createSetterName]
    simp only [hmulle, if_true]
    have hlength : (['m', 'u', 'l', 'l', 'e'] ++ c :: rest).length = rest.length + 6 := by simp
    have hstart : ['m', 'u', 'l', 'l', 'e', 'S', 'e', 't'].length = 8 := rfl
    rw [strcpy_calloc (by omega), Option.bind_some,
      strcat_append_eq_none (by decide) (by omega) (by omega), Option.bind_none]

end Setter

/-- The getter of `setX:`. -/
theorem createGetterName_eq (c : Char) (s : List Char) :
    createGetterName (['s', 'e', 't'] ++ c :: s ++ [':']) = some (lowered c :: s ++ calloc 4) := by
  have htake : ((['s', 'e', 't'] ++ c :: s ++ [':']).drop 3).take
      ((['s', 'e', 't'] ++ c :: s ++ [':']).length - 3 - 1) = c :: s := by simp
  have hlength : (['s', 'e', 't'] ++ c :: s ++ [':']).length - (c :: s).length = 4 := by simp
  have hlong : ¬ (['s', 'e', 't'] ++ c :: s ++ [':']).length <
      (if (['s', 'e', 't'] ++ c :: s ++ [':']).headD zero = 's' then 3 else 8) + 1 := by simp
  rw [createGetterName, if_neg hlong, if_pos (by rfl), htake, write_calloc (by simp), hlength,
    Option.bind_some]
  exact write_head c _ _

/-- The round trip from a name succeeds exactly without `mulle` in front of an uppercase
letter. -/
theorem PropertyName.getterRoundTrips_iff (n : PropertyName) :
    GetterRoundTrips n.chars ↔ isMulle n.chars = false := by
  obtain ⟨c, s, hlower, hident⟩ := n
  rw [PropertyName.chars]
  have hplain := plain_cons (isIdentifierChar_of_isLower hlower) hident
  have hupper := isUpper_toUpper hlower
  have hplain' := plain_cons (isIdentifierChar_of_isUpper hupper) hident
  constructor
  · rintro ⟨⟨bytes, hmade, _⟩, _⟩
    by_contra hmulle
    rw [createSetterName_eq_none (Bool.not_eq_false _ ▸ hmulle)] at hmade
    simp at hmade
  · intro hmulle
    have hset : setterOf (c :: s) = ['s', 'e', 't'] ++ c.toUpper :: s ++ [':'] := by
      simp [setterOf, hmulle]
    rw [GetterRoundTrips, hset, createSetterName_eq hmulle hplain,
      createGetterName_eq, lowered_toUpper hlower]
    constructor
    · apply makes_append_calloc _ Nat.one_pos (accessorTypeFromString_set hupper hplain')
      intro hmem
      rcases List.mem_append.mp hmem with hmem | hmem
      · exact (plain_set hplain').zero_notMem hmem
      · exact absurd hmem (by decide)
    · exact makes_append_calloc hplain.zero_notMem (by omega) (accessorTypeFromString_plain hplain)

theorem Suffix.valueName_setter (x : Suffix) :
    valueName x.setter = x.first.toLower :: x.rest := by
  have hdrop : (x.setter.drop 3).dropLast = x.first :: x.rest :=
    List.dropLast_concat
  rw [valueName, hdrop]
  rfl

theorem Suffix.valueName_mulleSetter (x : Suffix) :
    valueName x.mulleSetter = ['m', 'u', 'l', 'l', 'e'] ++ x.chars := by
  change ['m', 'u', 'l', 'l', 'e'] ++ (x.first :: x.rest ++ [':']).dropLast = _
  rw [List.dropLast_concat, Suffix.chars]

/-- A setter that could not be made from its getter does not come back. -/
theorem not_setterRoundTrips_of_isMulle {setter : List Char}
    (hmulle : isMulle (valueName setter) = true) : ¬SetterRoundTrips setter := by
  rintro ⟨_, bytes, hmade, _⟩
  rw [createSetterName_eq_none hmulle] at hmade
  simp at hmade

/-- The round trip from `setX:` succeeds exactly if `X` is not `Mulle` in front of an uppercase
letter. -/
theorem Suffix.setterRoundTrips_iff (x : Suffix) :
    SetterRoundTrips x.setter ↔ isMulle (valueName x.setter) = false := by
  constructor
  · intro h
    by_contra hmulle
    exact not_setterRoundTrips_of_isMulle (Bool.not_eq_false _ ▸ hmulle) h
  · rw [SetterRoundTrips, x.valueName_setter]
    intro hmulle
    obtain ⟨c, s, hupper, hident⟩ := x
    have hlower := isLower_toLower hupper
    have hplain := plain_cons (isIdentifierChar_of_isUpper hupper) hident
    have hplain' := plain_cons (isIdentifierChar_of_isLower hlower) hident
    have hzero : zero ∉ ['s', 'e', 't'] ++ c :: s ++ [':'] := by
      intro hmem
      rcases List.mem_append.mp hmem with hmem | hmem
      · exact (plain_set hplain).zero_notMem hmem
      · exact absurd hmem (by decide)
    rw [createSetterName_eq hmulle hplain', Suffix.setter, Suffix.chars, createGetterName_eq,
      lowered_eq_toLower (isUpper_iff.mp hupper), toUpper_toLower hupper]
    constructor
    · exact makes_append_calloc hplain'.zero_notMem (by omega)
        (accessorTypeFromString_plain hplain')
    · exact makes_append_calloc hzero Nat.one_pos (accessorTypeFromString_set hupper hplain)

/-- The round trip from `mulleSetX:` never succeeds. -/
theorem Suffix.not_setterRoundTrips_mulleSetter (x : Suffix) :
    ¬SetterRoundTrips x.mulleSetter := by
  apply not_setterRoundTrips_of_isMulle
  rw [x.valueName_mulleSetter]
  simp [isMulle, List.isPrefixOf, Suffix.chars, x.first_isUpper]

/-- Names of accessors survive the way to the other accessor and back exactly without `mulle`:
a getter `mulleX` and a setter `mulleSetX:` do not, and neither does `setMulleX:`, whose getter
is `mulleX` too. -/
theorem names_round_trip_iff (n : PropertyName) (x : Suffix) :
    (GetterRoundTrips n.chars ↔ isMulle n.chars = false) ∧
      (SetterRoundTrips x.setter ↔ isMulle (valueName x.setter) = false) ∧
      ¬SetterRoundTrips x.mulleSetter :=
  ⟨n.getterRoundTrips_iff, x.setterRoundTrips_iff, x.not_setterRoundTrips_mulleSetter⟩

/-- For `mulleFoo` the buffer of the setter is too short. -/
theorem mulleFoo_does_not_round_trip :
    ¬((∀ n : PropertyName, GetterRoundTrips n.chars) ∧
      ∀ x : Suffix, SetterRoundTrips x.setter ∧ SetterRoundTrips x.mulleSetter) := by
  rintro ⟨hgetter, _⟩
  obtain ⟨⟨bytes, hmade, _⟩, _⟩ :=
    hgetter ⟨'m', ['u', 'l', 'l', 'e', 'F', 'o', 'o'], by decide, by simp [Enum.isIdentifierChar]⟩
  have hnone : createSetterName ['m', 'u', 'l', 'l', 'e', 'F', 'o', 'o'] = none := by decide
  rw [PropertyName.chars, hnone] at hmade
  simp at hmade

end MulleObjC.Dynamic
