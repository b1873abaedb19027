import MulleObjC.Enum.Table
import MulleObjC.Library.BitCover
import MulleObjC.Library.FirstMatch

/-!
# Parsing enums and options

The strict parsers compare keys by `strncmp( key, s, key_len)`, so a line matches
as soon as its key is a prefix of the string, and the first matching line wins.
The lenient parsers hand strings that start with a digit to `atoll` and turn
every failure into zero.
-/

namespace MulleObjC.Enum

open FirstMatch

/-- The line loop of the strict parsers. It fails at the end of the table and at
the first NULL key. -/
def matchLine {w : ItemLen} : Table w → CString → Option (Item w)
  | [], _ => none
  | line :: table, s =>
    match line.s with
    | none => none
    | some key => if key.isPrefixOf s then some line else matchLine table s

/-- `if( *s == '|' && s[ 1] != 0) ++s;` -/
def skipBar : CString → CString
  | '|' :: c :: rest => c :: rest
  | s => s

/-- The `while( *s)` loop of `_NS_OPTIONS_ParseUTF8String_strict` with the content of
`*value`. Each iteration that does not shorten `s` repeats itself forever, so a loop
that needs more iterations than `s` has characters does not end: `none`. -/
def optionsParseLoop {w : ItemLen} (table : Table w) :
    ℕ → CString → BitVec 64 → Option (Bool × BitVec 64)
  | _, [], value => some (true, value)
  | 0, _ :: _, _ => none
  | fuel + 1, c :: cs, value =>
    match matchLine table (c :: cs) with
    | none => some (false, value)
    | some line =>
      optionsParseLoop table fuel (skipBar ((c :: cs).drop line.key.length)) (value ||| line.read)

/-- `_NS_OPTIONS_ParseUTF8String_strict`: the returned `BOOL` with the final content
of `*value`. -/
def optionsParseUTF8StringStrict {w : ItemLen} (table : Table w) (s : Option CString)
    (value : BitVec 64) : Option (Bool × BitVec 64) :=
  match s with
  | none => some (false, value)
  | some s => optionsParseLoop table s.length s 0

/-- `_NS_ENUM_ParseUTF8String_strict`: the returned `BOOL` with the final content of
`*value`. -/
def enumParseUTF8StringStrict {w : ItemLen} (table : Table w) (s : Option CString)
    (value : BitVec 64) : Bool × BitVec 64 :=
  match s.bind (matchLine table) with
  | none => (false, value)
  | some line => (true, line.read)

/-- `isspace` in the C locale. -/
def isspace (c : Char) : Bool := c == ' ' || (9 ≤ c.toNat && c.toNat ≤ 13)

/-- The value of the leading decimal digits of a string. -/
def decimalPrefix (s : CString) : ℕ :=
  (s.takeWhile Char.isDigit).foldl (fun n c => 10 * n + (c.toNat - '0'.toNat)) 0

/-- `atoll`: white space, a sign, decimal digits up to the first other character.
Values out of range are clamped as by `strtoll`. -/
def atoll (s : CString) : BitVec 64 :=
  match s.dropWhile isspace with
  | '-' :: digits => BitVec.ofInt 64 (max (-(2 ^ 63)) (-(decimalPrefix digits : ℤ)))
  | '+' :: digits => BitVec.ofInt 64 (min (2 ^ 63 - 1) (decimalPrefix digits : ℤ))
  | digits => BitVec.ofInt 64 (min (2 ^ 63 - 1) (decimalPrefix digits : ℤ))

/-- `s && isdigit( *s)` -/
def startsWithDigit : Option CString → Bool
  | some (c :: _) => c.isDigit
  | _ => false

/-- `if( strict( …, &value)) return( value); return( 0);` The local `value` of the source
is uninitialised, but only read after a success. -/
def valueOrZero : Bool × BitVec 64 → BitVec 64
  | (true, value) => value
  | (false, _) => 0

/-- `_NS_OPTIONS_ParseUTF8String`; `none` if the strict parser does not end. -/
def optionsParseUTF8String {w : ItemLen} (table : Table w) (s : Option CString) :
    Option (BitVec 64) :=
  if startsWithDigit s then some (atoll (s.getD []))
  else (optionsParseUTF8StringStrict table s 0).map valueOrZero

/-- `_NS_ENUM_ParseUTF8String` -/
def enumParseUTF8String {w : ItemLen} (table : Table w) (s : Option CString) : BitVec 64 :=
  if startsWithDigit s then atoll (s.getD []) else valueOrZero (enumParseUTF8StringStrict table s 0)

/-- Without NULL keys the line loop is the first match among the keys. -/
theorem matchLine_eq_first {w : ItemLen} {table : Table w} (hnamed : table.Named) (s : CString) :
    matchLine table s = first Item.key table s := by
  induction table with
  | nil => rfl
  | cons line table ih =>
    have hs := (hnamed.s_eq List.mem_cons_self).1
    rw [matchLine, hs, first, List.find?_cons]
    cases hmatch : line.key.isPrefixOf s with
    | true => simp [hmatch]
    | false => simpa [hmatch, first] using ih hnamed.tail

theorem Table.Named.key_ne_nil {w : ItemLen} {table : Table w} (hnamed : table.Named) :
    ∀ line ∈ table, line.key ≠ [] :=
  fun _ hline => (hnamed.s_eq hline).2.ne_nil

theorem Table.Named.bar_notMem {w : ItemLen} {table : Table w} (hnamed : table.Named) :
    ∀ line ∈ table, '|' ∉ line.key :=
  fun _ hline => (hnamed.s_eq hline).2.bar_notMem

theorem length_skipBar_le (s : CString) : (skipBar s).length ≤ s.length := by
  unfold skipBar
  split <;> simp

theorem skipBar_of_head_ne {c : Char} {s : CString} (h : c ≠ '|') :
    skipBar (c :: s) = c :: s := by
  unfold skipBar
  split
  · simp_all
  · rfl

/-- More fuel than characters changes nothing. -/
theorem optionsParseLoop_congr {w : ItemLen} {table : Table w} (hnamed : table.Named)
    {m n : ℕ} {s : CString} (hm : s.length ≤ m) (hn : s.length ≤ n) (value : BitVec 64) :
    optionsParseLoop table m s value = optionsParseLoop table n s value := by
  induction m generalizing n s value with
  | zero =>
    have hs : s = [] := by simpa using hm
    rw [hs, optionsParseLoop, optionsParseLoop]
  | succ m ih =>
    cases s with
    | nil => rw [optionsParseLoop, optionsParseLoop]
    | cons c cs =>
      cases n with
      | zero => simp at hn
      | succ n =>
        rw [optionsParseLoop, optionsParseLoop, matchLine_eq_first hnamed]
        cases hfirst : first Item.key table (c :: cs) with
        | none => rfl
        | some line =>
          have hlt := length_drop_lt (List.cons_ne_nil c cs)
            (hnamed.key_ne_nil line (mem_of_first hfirst))
          have hskip := length_skipBar_le ((c :: cs).drop line.key.length)
          exact ih (by omega) (by omega) _

/-- One iteration: the first matching key, then the separator behind it. -/
theorem optionsParseLoop_step {w : ItemLen} {table : Table w} (hnamed : table.Named)
    {s : CString} (hs : s ≠ []) (value : BitVec 64) :
    optionsParseLoop table s.length s value =
      match first Item.key table s with
      | none => some (false, value)
      | some line =>
        let rest := skipBar (s.drop line.key.length)
        optionsParseLoop table rest.length rest (value ||| line.read) := by
  cases s with
  | nil => exact absurd rfl hs
  | cons c cs =>
    rw [List.length_cons, optionsParseLoop, matchLine_eq_first hnamed]
    cases hfirst : first Item.key table (c :: cs) with
    | none => rfl
    | some line =>
      have hlt := length_drop_lt hs (hnamed.key_ne_nil line (mem_of_first hfirst))
      have hskip := length_skipBar_le ((c :: cs).drop line.key.length)
      rw [List.length_cons] at hlt
      exact optionsParseLoop_congr hnamed (by omega) le_rfl _

end MulleObjC.Enum
