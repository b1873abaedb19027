import MulleObjC.Dynamic.Property

/-!
# Names of accessors

In fully dynamic mode the name of a selector tells what it does. The name and the signature
of a getter are made from those of a setter, and the other way round.
-/

namespace MulleObjC.Dynamic

/-- `enum mulle_objc_property_accessor_type` -/
inductive AccessorType
  | invalid
  | getter
  | setter
  | adder
  | remover
  deriving DecidableEq, Repr

/-- What follows the first character of an accessor prefix, which is uppercase behind
`mulle`. -/
def accessorPrefix (expectUppercase : Bool) (c : Char) : Option (List Char × AccessorType) :=
  if c = (if expectUppercase then 'S' else 's') then some (['e', 't'], .setter)
  else if c = (if expectUppercase then 'A' else 'a') then some (['d', 'd', 'T', 'o'], .adder)
  else if c = (if expectUppercase then 'R' else 'r') then
    some (['e', 'm', 'o', 'v', 'e', 'F', 'r', 'o', 'm'], .remover)
  else none

/-- `accessor_type_from_string` -/
def accessorTypeFromString (name : List Char) : AccessorType :=
  match name.dropWhile (· ≠ ':') with
  | [] => .getter
  | _ :: _ :: _ => .invalid
  | [_] =>
    let expectUppercase := ['m', 'u', 'l', 'l', 'e'].isPrefixOf name
    match if expectUppercase then name.drop 5 else name with
    | [] => .invalid
    | c :: s =>
      match accessorPrefix expectUppercase c with
      | none => .invalid
      | some (cmp, accessorType) =>
        if cmp.isPrefixOf s then
          -- `settlementWithString:` is no setter.
          match s.drop cmp.length with
          | [] => .invalid
          | c :: _ => if 'A' ≤ c ∧ c ≤ 'Z' then accessorType else .invalid
        else .invalid

/-- The contents of a buffer up to its zero. -/
def cString (buffer : List Char) : List Char := buffer.takeWhile (· ≠ '\x00')

/-- `c - 'A' + 'a'`, stored in a `char`. -/
def lowered (c : Char) : Char := Char.ofNat ((c.toNat + 'a'.toNat - 'A'.toNat) % 256)

/-- The name that `create_getter_from_setter` makes: `setValue:` becomes `value`. Behind
`mulleSet` the wrong character is replaced, by `'m' - 'A' + 'a'`. -/
def getterName (setter : List Char) : List Char :=
  match setter with
  | 's' :: _ =>
    let name := (setter.drop 3).dropLast
    lowered (name.headD '\x00') :: name.tail
  | _ =>
    let name := setter.take 5 ++ (setter.drop 8).dropLast
    let buffer := name ++ List.replicate (setter.length - name.length) '\x00'
    cString (buffer.set 8 (lowered (setter.headD '\x00')))

/-- What `create_getter_from_setter` is after: `setValue:` becomes `value`, and `mulleSetValue:`
becomes `mulleValue`. -/
def valueName (setter : List Char) : List Char :=
  if ['m', 'u', 'l', 'l', 'e'].isPrefixOf setter then setter.take 5 ++ (setter.drop 8).dropLast
  else
    match (setter.drop 3).dropLast with
    | [] => []
    | c :: s => c.toLower :: s

theorem toNat_toLower {c : Char} (hc : 'A' ≤ c ∧ c ≤ 'Z') : c.toLower.toNat = c.toNat + 32 := by
  have hle : c.toNat ≤ 90 := hc.2
  have hlower : c.toLower.toNat = (c.val + ('a'.val - 'A'.val)).toNat :=
    congrArg Char.toNat (dif_pos ⟨hc.1, hc.2⟩)
  rw [hlower]
  change (c.val + ('a'.val - 'A'.val)).toNat = c.val.toNat + 32
  rw [UInt32.toNat_add]
  simp
  omega

theorem lowered_eq_toLower {c : Char} (hc : 'A' ≤ c ∧ c ≤ 'Z') : lowered c = c.toLower := by
  have hge : 65 ≤ c.toNat := hc.1
  have hle : c.toNat ≤ 90 := hc.2
  have hsum : (c.toNat + 'a'.toNat - 'A'.toNat) % 256 = c.toLower.toNat := by
    rw [toNat_toLower hc]
    change (c.toNat + 97 - 65) % 256 = c.toNat + 32
    omega
  rw [lowered, hsum, Char.ofNat_toNat]

/-- Behind `set` the name is right. -/
theorem getterName_eq_valueName {c : Char} (hc : 'A' ≤ c ∧ c ≤ 'Z') (s : List Char) :
    getterName ('s' :: 'e' :: 't' :: c :: s ++ [':']) =
      valueName ('s' :: 'e' :: 't' :: c :: s ++ [':']) := by
  have hname : (c :: s ++ [':']).dropLast = c :: s := List.dropLast_concat
  change lowered (((c :: s ++ [':']).dropLast).headD '\x00') :: (c :: s ++ [':']).dropLast.tail =
    match (c :: s ++ [':']).dropLast with
    | [] => []
    | c :: s => c.toLower :: s
  rw [hname, List.headD_cons, List.tail_cons, lowered_eq_toLower hc]

/-- The name that `create_setter_from_getter` makes: `value` becomes `setValue:`. The buffer is
too short for `mulleSet`. -/
def setterName (getter : List Char) : List Char :=
  let isMulle := ['m', 'u', 'l', 'l', 'e'].isPrefixOf getter &&
    ((getter.drop 5).headD '\x00').isUpper
  let start := if isMulle then ['m', 'u', 'l', 'l', 'e', 'S', 'e', 't'] else ['s', 'e', 't']
  match getter with
  | [] => start ++ [':']
  | c :: s => start ++ c.toUpper :: s ++ [':']

/-- A conversion in a format of `mulle_buffer_sprintf`. -/
inductive Conversion
  /-- `%d` -/
  | d
  /-- `%s` -/
  | s
  /-- `%.*s` -/
  | precisionS
  deriving DecidableEq, Repr

/-- The type of an argument. -/
inductive ArgumentType
  | int
  | size
  | string
  deriving DecidableEq, Repr

/-- The arguments fit the conversions. If they do not, anything can happen. -/
def sprintfIsDefined : List Conversion → List ArgumentType → Bool
  | [], _ => true
  | .d :: format, .int :: arguments => sprintfIsDefined format arguments
  | .s :: format, .string :: arguments => sprintfIsDefined format arguments
  | .precisionS :: format, .int :: .string :: arguments => sprintfIsDefined format arguments
  | _, _ => false

/-- The signature that `create_getter_from_setter` prints: `"%.*s%d@0:%d"`. -/
def getterSignatureIsDefined : Bool :=
  sprintfIsDefined [.precisionS, .d, .d] [.int, .string, .int, .int]

/-- The signature that `create_setter_from_getter` prints: `"v%d@0:%d%s%.*s%d"`, where
`size` comes third. -/
def setterSignatureIsDefined : Bool :=
  sprintfIsDefined [.d, .d, .s, .precisionS, .d] [.int, .int, .size, .string, .int]

example : accessorTypeFromString ['s', 'e', 't', 'F', 'o', 'o', ':'] = .setter := by decide

example : getterName ['s', 'e', 't', 'F', 'o', 'o', ':'] = ['f', 'o', 'o'] := by decide

example : getterName ['m', 'u', 'l', 'l', 'e', 'S', 'e', 't', 'F', 'o', 'o', 'o', ':'] ≠
    valueName ['m', 'u', 'l', 'l', 'e', 'S', 'e', 't', 'F', 'o', 'o', 'o', ':'] := by decide

end MulleObjC.Dynamic
