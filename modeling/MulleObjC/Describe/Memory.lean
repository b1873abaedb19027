import MulleObjC.Describe.Encoding
import MulleObjC.Enum.Parse

/-!
# Descriptions of memory

`_MulleObjCDescribeMemory` prints what is in memory, along the encoding of its type. It calls
itself for the members of structs and unions and for the elements of arrays.
-/

namespace MulleObjC.Describe

/-- What a scalar value is read as. -/
inductive Kind
  | scalar (s : Scalar)
  | pointer
  deriving DecidableEq, Repr

/-- `sizeof`, and `alignof`, of the type that the value is read as: a `_Bool` is read as an
`int`. -/
def Kind.size : Kind → ℕ
  | scalar .bool => Scalar.int.size
  | scalar s => s.size
  | pointer => 8

/-- The character of a value. -/
def Kind.code : Kind → Char
  | scalar s => s.code
  | pointer => '^'

/-- More than the value is looked at: the object or the string that it points to, or the name of
the selector. -/
def Kind.isFollowed : Kind → Bool
  | scalar .id | scalar .assignId | scalar .copyId | scalar .cls | scalar .sel
  | scalar .charPtr => true
  | _ => false

/-- A scalar value that was read. -/
structure Read where
  kind : Kind
  address : ℕ
  deriving DecidableEq, Repr

/-- The address behind the value. -/
def Read.last (r : Read) : ℕ := r.address + r.kind.size

/-- How the values in memory are printed. -/
structure Printer where
  /-- There is no text for a value that cannot be read, or is followed to where nothing can be. -/
  text : Read → Option (List Char)
  text_null : ∀ r, r.address = 0 → text r = none
  isSome_text : ∀ r, r.address ≠ 0 → r.kind.isFollowed = false → (text r).isSome = true

/-- Every value is the same letter. -/
def Printer.letter (c : Char) : Printer where
  text r := if r.address = 0 then none else some [c]
  text_null _ hr := if_pos hr
  isSome_text r hr _ := by simp [hr]

/-- What a call comes to. -/
inductive Outcome
  /-- It reads behind the terminator of the type, uses a value it has not set, or follows a
  pointer to where nothing can be read. -/
  | undefined
  /-- It returns `NULL`. -/
  | null (output : List Char)
  /-- It returns `p`, which is `NULL` too if `data` has no bytes, and leaves `rest` in `*p_type`.
  Behind the terminator there is none. -/
  | done (p : ℕ) (rest : Option (List Char)) (output : List Char) (reads : List Read)
  deriving DecidableEq

/-- The outcome behind some output and some reads. -/
def Outcome.behind (output : List Char) (reads : List Read) : Outcome → Outcome
  | undefined => undefined
  | null output' => null (output ++ output')
  | done p rest output' reads' => done p rest (output ++ output') (reads ++ reads')

/-- Go on with the pointers that a call has left, unless it has returned `NULL`:
`if( ! p) return( NULL)` -/
def Outcome.andThen (f : ℕ → Option (List Char) → Option Outcome) : Outcome → Option Outcome
  | undefined => some undefined
  | null output => some (null output)
  | done p rest output reads =>
    if p = 0 then some (null output) else (f p rest).map (behind output reads)

/-- The part of a string in front of a character, and the part behind. `none` if it is missing,
and a loop that looks for it reads behind the terminator. -/
def scan (c : Char) : List Char → Option (List Char × List Char)
  | [] => none
  | d :: s => if d = c then some ([], s) else (scan c s).map fun r => (d :: r.1, r.2)

/-- `atoi`: the lower half of what `strtol` returns. -/
def atoi (s : List Char) : ℤ := ((Enum.atoll s).setWidth 32).toInt

/-- The scalar of a character. -/
def scalarOfCode : Char → Option Scalar
  | '@' => some .id
  | '=' => some .assignId
  | '~' => some .copyId
  | '#' => some .cls
  | ':' => some .sel
  | 'B' => some .bool
  | 'D' => some .longDouble
  | 'd' => some .double
  | 'f' => some .float
  | 'c' => some .char
  | 'i' => some .int
  | 'l' => some .long
  | 'q' => some .longLong
  | 's' => some .short
  | 'C' => some .unsignedChar
  | 'I' => some .unsignedInt
  | 'L' => some .unsignedLong
  | 'Q' => some .unsignedLongLong
  | 'S' => some .unsignedShort
  | '*' => some .charPtr
  | _ => none

/-- `get_scalarvalue`: where the value is, if it is in front of the sentinel. -/
def getScalarvalue (kind : Kind) (p sentinel : ℕ) : Option Read :=
  let address := alignUp p kind.size
  if address + kind.size ≤ sentinel then some ⟨kind, address⟩ else none

/-- What the `switch( *type)` does. A text is printed behind the separator. -/
inductive Plan
  | undefined
  | null (text : Option (List Char))
  | leaf (p : ℕ) (rest : Option (List Char)) (text : Option (List Char)) (reads : List Read)
  | struct (tag members : List Char)
  | union (tag members : List Char)
  | array (n : ℕ) (element : List Char)

/-- Nothing, or the text behind its separator. -/
def separated (sep : List Char) : Option (List Char) → List Char
  | none => []
  | some text => sep ++ text

/-- The tag and the opening bracket. -/
def header (keyword tag sep bracket : List Char) : List Char :=
  (if tag = [] then [] else '(' :: keyword ++ ' ' :: tag ++ [')', ' ']) ++ (sep ++ bracket)

section Describe

variable (nextType : List Char → List Char) (printer : Printer) (sentinel : ℕ)

/-- A scalar, with what is left of the type behind it. -/
def planScalar (kind : Kind) (p : ℕ) (rest : List Char) : Plan :=
  match getScalarvalue kind p sentinel with
  | none => .null none
  | some r =>
    match printer.text r with
    | none => .undefined
    | some text => .leaf r.last (some rest) (some text) [r]

/-- `switch( *type)` -/
def plan (p : ℕ) : List Char → Plan
  -- The terminator has no case, and is skipped like any other character without one.
  | [] => .leaf p none none []
  | c :: s =>
    match scalarOfCode c with
    | some scalar => planScalar printer sentinel (.scalar scalar) p s
    | none =>
      if c ∈ ['%', '?', '!', 'b', ']', '}', ')'] then .null (some ['?', '?', '?'])
      else if c = 'v' then .leaf p (some s) (some ['<', 'v', 'o', 'i', 'd', '>']) []
      else if c = '^' then planScalar printer sentinel .pointer p (nextType (c :: s))
      else if c = '{' then
        match scan '=' s with
        | none => .undefined
        | some (tag, members) => .struct tag members
      else if c = '(' then
        match scan '=' s with
        | none => .undefined
        | some (tag, members) => .union tag members
      else if c = '[' then
        -- Without elements `element_type` is not set.
        if atoi s ≤ 0 then .undefined else .array (atoi s).toNat (s.dropWhile Char.isDigit)
      else .leaf p (some s) none []

/-- `while( *type != _C_STRUCT_E)`, with a way to describe a member. -/
def structLoop (describe : ℕ → List Char → List Char → Option Outcome) :
    ℕ → ℕ → Option (List Char) → List Char → Bool → Option Outcome
  | 0, _, _, _, _ => none
  | _ + 1, _, none, _, _ => some .undefined
  | fuel + 1, p, some type, sep, any =>
    if type.head? = some '}' then
      some (.done p (some type.tail) (if any then [' ', '}'] else ['}']) [])
    else
      (describe p type sep).bind (Outcome.andThen fun p rest =>
        structLoop describe fuel p rest [',', ' '] true)

/-- `while( *type != _C_UNION_E)` -/
def unionEnd (close : List Char) (p : ℕ) (rest : Option (List Char)) : Option Outcome :=
  match rest.bind (scan ')') with
  | none => some .undefined
  | some (_, rest) => some (.done p (some rest) close [])

/-- The first member of a union, and the way to its end. -/
def unionMember (describe : ℕ → List Char → List Char → Option Outcome) (p : ℕ)
    (type : List Char) : Option Outcome :=
  if type.head? = some ')' then unionEnd [')'] p (some type)
  else (describe p type [' ']).bind (Outcome.andThen (unionEnd [' ', ')']))

/-- `for( sep = " ", i = 0; i < n; i++, sep = ", ")`, where `rest` is in `element_type`. -/
def arrayLoop (describe : ℕ → List Char → List Char → Option Outcome) (type : List Char) :
    ℕ → ℕ → List Char → Option (List Char) → Option Outcome
  | 0, p, _, rest => some (.done p rest [] [])
  | n + 1, p, sep, _ =>
    (describe p type sep).bind (Outcome.andThen fun p rest =>
      arrayLoop describe type n p [',', ' '] rest)

/-- What follows the elements of an array. -/
def arrayEnd (p : ℕ) : Option (List Char) → Option Outcome
  | none => some .undefined
  | some type =>
    if type.head? = some ']' then some (.done p (some type.tail) [' ', ']'] [])
    else some (.null [',', ' ', '?', '?', '?'])

/-- `_MulleObjCDescribeMemory`, for calls that are nested `fuel` times at most. -/
def describe : ℕ → ℕ → List Char → List Char → Option Outcome
  | 0, _, _, _ => none
  | fuel + 1, p, type, sep =>
    match plan nextType printer sentinel p type with
    | .undefined => some .undefined
    | .null text => some (.null (separated sep text))
    | .leaf p rest text reads => some (.done p rest (separated sep text) reads)
    | .struct tag members =>
      (structLoop (fun p type sep => describe fuel p type sep) fuel p (some members) [' ']
        false).map
        (.behind (header ['s', 't', 'r', 'u', 'c', 't'] tag sep ['{']) [])
    | .union tag members =>
      (unionMember (fun p type sep => describe fuel p type sep) p members).map
        (.behind (header ['u', 'n', 'i', 'o', 'n'] tag sep ['(']) [])
    | .array n element =>
      ((arrayLoop (fun p type sep => describe fuel p type sep) element n p [' '] none).bind
        (Outcome.andThen arrayEnd)).map (.behind (sep ++ ['[']) [])

end Describe

/-- `struct mulle_data` -/
structure Data where
  bytes : ℕ
  length : ℕ

/-- `&data.bytes[ data.length]`, an address like any other -/
def Data.sentinel (data : Data) : ℕ := (data.bytes + data.length) % 2 ^ 64

/-- `_MulleObjCDescribeMemory`. Each call is for a shorter rest of the type. -/
def describeData (nextType : List Char → List Char) (printer : Printer) (data : Data)
    (type sep : List Char) : Option Outcome :=
  describe nextType printer data.sentinel (type.length + 1) data.bytes type sep

/-- `MulleObjCDescribeMemory`: what it returns, and what it has added to the buffer. -/
def describeMemory (nextType : List Char → List Char) (printer : Printer) (data : Data)
    (type : List Char) : Option (Bool × List Char) :=
  (describeData nextType printer data type []).bind fun o =>
    match o with
    | .undefined => none
    | .null _ => some (false, "<broken type>".toList)
    | .done p _ output _ => some (if p = 0 then (false, "<broken type>".toList) else (true, output))

example : describeMemory skipType (.letter 'x') ⟨16, 16⟩ "{abc=icd}".toList =
    some (true, "(struct abc) { x, x, x }".toList) := by decide

example : describeMemory skipType (.letter 'x') ⟨16, 8⟩ "]kaputt[".toList =
    some (false, "<broken type>".toList) := by decide

end MulleObjC.Describe
