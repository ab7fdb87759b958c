/-
# `Limceron.Json.Value` — the values of the runtime's JSON, and how they are written

`runtime/json.c`.  A text is a list of bytes.  The bytes the code names:

| byte          | character              | byte          | character      |
|---------------|------------------------|---------------|----------------|
| `0x20`        | blank                  | `0x5B` `0x5D` | `[` `]`        |
| `0x22` `0x5C` | `"` `\`                | `0x7B` `0x7D` | braces         |
| `0x2B` `0x2D` | `+` `-`                | `0x2C` `0x3A` | `,` `:`        |
| `0x2E` `0x2F` | `.` `/`                | `0x45` `0x65` | `E` `e`        |
| `0x30` …      | `0` … `9`              | `0x75`        | `u`            |

Memory is not modelled: every allocation succeeds.
-/
import Limceron.Lib.Binary64

namespace Limceron.Json

open Binary64

/-- The bytes of a text of plain characters. -/
def ascii (s : String) : List UInt8 := s.toList.map Char.toUInt8

/-- What holds of all bytes of a text is decided byte by byte. -/
instance decidableBytes (p : UInt8 → Prop) [DecidablePred p] (s : List UInt8) :
    Decidable (∀ c ∈ s, p c) :=
  List.decidableBAll p s

/-- The bytes up to the first NUL. -/
def cstr (s : List UInt8) : List UInt8 := s.takeWhile (· ≠ 0)

/-- A value; the members of an object stand in the order they came in. -/
inductive LcnJsonValue where
  | null
  | boolean (b : Bool)
  | number (d : Double)
  | string (str : List UInt8)
  | array (items : List LcnJsonValue)
  | object (members : List (List UInt8 × LcnJsonValue))

/-! ## Numbers -/

/-- `%lld`. -/
def formatInt (n : ℤ) : List UInt8 :=
  (if n < 0 then [0x2D] else []) ++ (Nat.toDigits 10 n.natAbs).map Char.toUInt8

/-- The digits of a fraction, without the zeros at its end. -/
def trimZeros (ds : List Char) : List Char := (ds.reverse.dropWhile (· = '0')).reverse

/-- A fraction behind its point; none, where it is zero. -/
def fractionPart (ds : List Char) : List Char :=
  if trimZeros ds = [] then [] else '.' :: trimZeros ds

/-- The exponent of `%e`: a sign and at least two digits. -/
def exponentPart (x : ℤ) : List Char :=
  let ds := Nat.toDigits 10 x.natAbs
  'e' :: (if x < 0 then '-' else '+') :: (if ds.length < 2 then '0' :: ds else ds)

/-- Seventeen significant digits, and the place of the first of them. -/
def significant (q : ℚ) : ℤ × ℤ :=
  let x := Int.log 10 |q|
  let m := nearest (|q| / 10 ^ (x - 16))
  if m = 10 ^ 17 then (10 ^ 16, x + 1) else (m, x)

/-- `%.17g`. -/
def formatG17 (q : ℚ) : List UInt8 :=
  if q = 0 then ascii "0" else
  let (m, x) := significant q
  let ds := Nat.toDigits 10 m.natAbs
  let text :=
    if x < -4 ∨ 17 ≤ x then ds.take 1 ++ fractionPart (ds.drop 1) ++ exponentPart x
    else if 0 ≤ x then ds.take (x.toNat + 1) ++ fractionPart (ds.drop (x.toNat + 1))
    else '0' :: fractionPart (List.replicate (-x - 1).toNat '0' ++ ds)
  (if q < 0 then [0x2D] else []) ++ text.map Char.toUInt8

/-- A number: as an integer, where it is one of at most `10 ^ 15`. -/
def stringifyNumber : Double → List UInt8
  | .finite q _ =>
      if q = (q.num : ℚ) ∧ -10 ^ 15 ≤ q ∧ q ≤ 10 ^ 15 then formatInt q.num else formatG17 q
  | .infinite negative => ascii (if negative then "-inf" else "inf")

/-! ## Strings -/

/-- `%x` of a number below 16. -/
def hexChar (n : UInt8) : UInt8 := if n < 10 then 0x30 + n else 0x57 + n

/-- One byte of a string. -/
def stringifyByte (c : UInt8) : List UInt8 :=
  if c = 0x22 then [0x5C, 0x22]
  else if c = 0x5C then [0x5C, 0x5C]
  else if c = 0x08 then [0x5C, 0x62]
  else if c = 0x0C then [0x5C, 0x66]
  else if c = 0x0A then [0x5C, 0x6E]
  else if c = 0x0D then [0x5C, 0x72]
  else if c = 0x09 then [0x5C, 0x74]
  else if c < 0x20 then [0x5C, 0x75, 0x30, 0x30, hexChar (c / 16), hexChar (c % 16)]
  else [c]

def stringifyString (s : List UInt8) : List UInt8 :=
  0x22 :: s.flatMap stringifyByte ++ [0x22]

/-! ## Values -/

mutual

def stringifyValue : LcnJsonValue → List UInt8
  | .null => ascii "null"
  | .boolean b => ascii (if b then "true" else "false")
  | .number d => stringifyNumber d
  | .string str => stringifyString str
  | .array items => 0x5B :: stringifyItems items ++ [0x5D]
  | .object members => 0x7B :: stringifyMembers members ++ [0x7D]

/-- The items of an array, with a comma before each but the first. -/
def stringifyItems : List LcnJsonValue → List UInt8
  | [] => []
  | [v] => stringifyValue v
  | v :: w :: items => stringifyValue v ++ 0x2C :: stringifyItems (w :: items)

def stringifyMembers : List (List UInt8 × LcnJsonValue) → List UInt8
  | [] => []
  | [(key, v)] => stringifyString (cstr key) ++ 0x3A :: stringifyValue v
  | (key, v) :: m :: members =>
      stringifyString (cstr key) ++ 0x3A :: stringifyValue v ++ 0x2C ::
        stringifyMembers (m :: members)

end

def lcnJsonStringify (v : LcnJsonValue) : List UInt8 := stringifyValue v

end Limceron.Json
