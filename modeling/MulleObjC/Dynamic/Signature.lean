import MulleObjC.Describe.Encoding
import MulleObjC.Dynamic.Names

/-!
# Accessor signatures

`create_getter_from_setter` cuts the type of the argument out of the signature of a setter and
prints the signature of a getter, and `create_setter_from_getter` goes the other way. The types
are found by `mulle_objc_signature_supply_typeinfo` of the runtime, a parameter here.
-/

namespace MulleObjC.Dynamic

open MulleObjC.Describe (Encoding StartsWithoutDigit)

/-- What `mulle_objc_signature_supply_typeinfo` finds out about a type. -/
structure TypeInfo where
  /-- `pure_type_end`, counted from the start of the type -/
  pureTypeEnd : ℕ
  /-- `natural_size` -/
  naturalSize : ℕ
  deriving DecidableEq, Repr

/-- A piece of a format. -/
inductive Piece
  | text (s : List Char)
  | conversion (c : Conversion)

/-- An argument of `mulle_buffer_sprintf`. -/
inductive Argument
  | int (n : ℤ)
  | size (n : ℕ)
  | string (s : List Char)

/-- The type of an argument. -/
def Argument.type : Argument → ArgumentType
  | int _ => .int
  | size _ => .size
  | string _ => .string

/-- What `%d` prints. -/
def printInt (n : ℤ) : List Char :=
  if n < 0 then '-' :: Nat.toDigits 10 n.natAbs else Nat.toDigits 10 n.toNat

/-- What `%.*s` prints. A negative precision counts as none. -/
def printPrecision (n : ℤ) (s : List Char) : List Char := if n < 0 then s else s.take n.toNat

/-- `mulle_buffer_sprintf`; `none` if an argument does not fit its conversion. -/
def sprintf : List Piece → List Argument → Option (List Char)
  | [], _ => some []
  | .text s :: format, arguments => (sprintf format arguments).map (s ++ ·)
  | .conversion .d :: format, .int n :: arguments =>
    (sprintf format arguments).map (printInt n ++ ·)
  | .conversion .s :: format, .string s :: arguments => (sprintf format arguments).map (s ++ ·)
  | .conversion .precisionS :: format, .int n :: .string s :: arguments =>
    (sprintf format arguments).map (printPrecision n s ++ ·)
  | _, _ => none

/-- The conversions of a format. -/
def conversions : List Piece → List Conversion
  | [] => []
  | .text _ :: format => conversions format
  | .conversion c :: format => c :: conversions format

/-- `mulle_buffer_sprintf` prints exactly if the types of the arguments fit. -/
theorem isSome_sprintf (format : List Piece) (arguments : List Argument) :
    (sprintf format arguments).isSome =
      sprintfIsDefined (conversions format) (arguments.map Argument.type) := by
  induction format generalizing arguments with
  | nil => rfl
  | cons piece format ih =>
    cases piece with
    | text s => simpa [sprintf, conversions] using ih arguments
    | conversion c =>
      cases arguments with
      | nil => cases c <;> rfl
      | cons a arguments =>
        cases c with
        | d | s =>
          cases a <;> simp [sprintf, conversions, sprintfIsDefined, Argument.type, ih]
        | precisionS =>
          cases arguments with
          | nil => cases a <;> rfl
          | cons b arguments =>
            cases a <;> cases b <;>
              simp [sprintf, conversions, sprintfIsDefined, Argument.type, ih]

/-- `(int) n` -/
def toInt (n : ℕ) : ℤ := (BitVec.ofNat 32 n).toInt

theorem toInt_of_lt {n : ℕ} (hn : n < 2 ^ 31) : toInt n = n := by
  have hmod : (BitVec.ofNat 32 n).toNat = n := by
    rw [BitVec.toNat_ofNat]
    omega
  rw [toInt, BitVec.toInt_eq_toNat_of_lt (by omega), hmod]

/-- `"%.*s%d@0:%d"` -/
def getterFormat : List Piece :=
  [.conversion .precisionS, .conversion .d, .text ['@', '0', ':'], .conversion .d]

/-- `"v%d@0:%d%s%.*s%d"` -/
def setterFormat : List Piece :=
  [.text ['v'], .conversion .d, .text ['@', '0', ':'], .conversion .d, .conversion .s,
    .conversion .precisionS, .conversion .d]

section Signatures

variable (supplyTypeinfo : List Char → List Char × TypeInfo)

/-- The signature that `create_getter_from_setter` makes. -/
def createGetterSignature (setter : List Char) : Option (List Char) :=
  let self := (supplyTypeinfo setter).1
  let cmd := (supplyTypeinfo self).1
  let arg := (supplyTypeinfo cmd).1
  let info := (supplyTypeinfo arg).2
  sprintf getterFormat [.int (toInt info.pureTypeEnd), .string arg, .int 16, .int 8]

/-- The signature that `create_setter_from_getter` makes. The format asks for a string where
`size` is. -/
def createSetterSignature (getter : List Char) : Option (List Char) :=
  let info := (supplyTypeinfo getter).2
  sprintf setterFormat [.int (toInt (info.naturalSize + 8 + 8)), .int 8, .size info.pureTypeEnd,
    .string getter, .int 16]

/-- `mulle_objc_signature_supply_typeinfo` goes from a type, past its offset, to the next one. -/
structure SuppliesTypeinfo : Prop where
  encoding (t : Encoding) (offset : ℕ) (rest : List Char) (hrest : StartsWithoutDigit rest) :
    supplyTypeinfo (t.encode ++ Nat.toDigits 10 offset ++ rest) =
      (rest, ⟨t.encode.length, t.size⟩)
  void (offset : ℕ) (rest : List Char) (hrest : StartsWithoutDigit rest) :
    (supplyTypeinfo ('v' :: Nat.toDigits 10 offset ++ rest)).1 = rest

/-- The offsets in a signature without arguments. -/
structure Offsets where
  rval : ℕ
  self : ℕ
  cmd : ℕ

/-- `self` and `_cmd` with their offsets. -/
def implicitArguments (o : Offsets) : List Char :=
  '@' :: Nat.toDigits 10 o.self ++ ':' :: Nat.toDigits 10 o.cmd

/-- The signature of a method that returns a type. -/
def getterSignature (t : Encoding) (o : Offsets) : List Char :=
  t.encode ++ Nat.toDigits 10 o.rval ++ implicitArguments o

/-- The signature of a method that returns nothing, with one argument. -/
def setterSignature (t : Encoding) (o : Offsets) (arg : ℕ) : List Char :=
  'v' :: Nat.toDigits 10 o.rval ++ (implicitArguments o ++ (t.encode ++ Nat.toDigits 10 arg))

/-- From every setter with this argument the getter is made that returns it, and from every
getter that returns it the setter with this argument behind `self` and `_cmd`. Then one leads
to the other and back. -/
def SignaturesRoundTrip (t : Encoding) : Prop :=
  (∀ o arg, createGetterSignature supplyTypeinfo (setterSignature t o arg) =
    some (getterSignature t ⟨16, 0, 8⟩)) ∧
  ∀ o, createSetterSignature supplyTypeinfo (getterSignature t o) =
    some (setterSignature t ⟨t.size + 16, 0, 8⟩ 16)

variable {supplyTypeinfo}

theorem startsWithoutDigit_cons {c : Char} (hc : c.isDigit = false) (s : List Char) :
    StartsWithoutDigit (c :: s) := by
  intro d hd
  rw [List.head?_cons, Option.mem_some_iff] at hd
  rwa [← hd]

/-- The argument of a setter is found behind the types in front of it. -/
theorem SuppliesTypeinfo.argument (h : SuppliesTypeinfo supplyTypeinfo) (t : Encoding)
    (o : Offsets) (arg : ℕ) :
    (supplyTypeinfo (supplyTypeinfo (supplyTypeinfo (setterSignature t o arg)).1).1).1 =
      t.encode ++ Nat.toDigits 10 arg := by
  have hvoid : (supplyTypeinfo (setterSignature t o arg)).1 = _ :=
    h.void o.rval _ (startsWithoutDigit_cons (by decide) _)
  have hself := h.encoding (.scalar .id) o.self
    (':' :: Nat.toDigits 10 o.cmd ++ (t.encode ++ Nat.toDigits 10 arg))
    (startsWithoutDigit_cons (by decide) _)
  have hcmd := h.encoding (.scalar .sel) o.cmd (t.encode ++ Nat.toDigits 10 arg)
    (t.startsWithoutDigit_encode _)
  have himplicit : implicitArguments o ++ (t.encode ++ Nat.toDigits 10 arg) =
      (Encoding.scalar .id).encode ++ Nat.toDigits 10 o.self ++
        (':' :: Nat.toDigits 10 o.cmd ++ (t.encode ++ Nat.toDigits 10 arg)) := by
    simp [implicitArguments, Encoding.encode, Describe.Scalar.code]
  rw [hvoid, himplicit, hself]
  exact congrArg Prod.fst hcmd

/-- The getter that is made from a setter returns the type of its argument, and takes nothing
but `self` and `_cmd`. -/
theorem createGetterSignature_setterSignature (h : SuppliesTypeinfo supplyTypeinfo)
    (t : Encoding) (hlength : t.encode.length < 2 ^ 31) (o : Offsets) (arg : ℕ) :
    createGetterSignature supplyTypeinfo (setterSignature t o arg) =
      some (getterSignature t ⟨16, 0, 8⟩) := by
  have hinfo := h.encoding t arg [] (by simp [StartsWithoutDigit])
  rw [List.append_nil] at hinfo
  have htake : printPrecision t.encode.length (t.encode ++ Nat.toDigits 10 arg) = t.encode := by
    rw [printPrecision, if_neg (by omega), Int.toNat_natCast, List.take_left]
  rw [createGetterSignature]
  simp only [h.argument, hinfo, toInt_of_lt hlength, getterFormat, sprintf, htake, Option.map_some,
    List.append_nil]
  simp only [getterSignature, implicitArguments, List.append_assoc]
  rfl

variable (supplyTypeinfo)

/-- No signature of a setter is printed. -/
theorem createSetterSignature_eq_none (getter : List Char) :
    createSetterSignature supplyTypeinfo getter = none := by
  rw [← Option.not_isSome_iff_eq_none, createSetterSignature, isSome_sprintf]
  exact Bool.false_ne_true

/-- Signatures of accessors never make the way to the other accessor and back. -/
theorem signatures_never_round_trip (t : Encoding) : ¬SignaturesRoundTrip supplyTypeinfo t := by
  rintro ⟨_, hsetter⟩
  have hsome := hsetter ⟨16, 0, 8⟩
  rw [createSetterSignature_eq_none] at hsome
  simp at hsome

end Signatures

/-- From `i16@0:8` no setter is made. -/
theorem int_setter_is_not_made :
    ¬ ∀ t : Encoding, SignaturesRoundTrip (fun s => ((Describe.skipType s).dropWhile Char.isDigit,
      ⟨s.length - (Describe.skipType s).length, t.size⟩)) t := by
  intro h
  obtain ⟨_, hsetter⟩ := h (.scalar .int)
  have hsome := hsetter ⟨16, 0, 8⟩
  rw [createSetterSignature_eq_none] at hsome
  simp at hsome

end MulleObjC.Dynamic
