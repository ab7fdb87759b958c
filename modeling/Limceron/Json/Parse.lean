/-
# `Limceron.Json.Parse` — the parser of the runtime's JSON

`JsonParser` is the text that is not read yet.  A reader returns what it read and the
text behind it, or nothing where the code returns `NULL`.

The loops are bounded by the length of the text, and each turn takes a byte at least;
the nesting is bounded the same way.
-/
import Limceron.Json.Value

namespace Limceron.Json

open Binary64

/-! ## White space and single bytes -/

def isSpace (c : UInt8) : Bool := c = 0x20 || c = 0x09 || c = 0x0A || c = 0x0D

def isDigit (c : UInt8) : Bool := 0x30 ≤ c && c ≤ 0x39

def skipWhitespace (s : List UInt8) : List UInt8 := s.dropWhile isSpace

/-- The next byte behind white space, NUL at the end. -/
def peek (s : List UInt8) : UInt8 := (skipWhitespace s).headD 0

/-- The text behind the byte `c`, which may have white space before it. -/
def consume (c : UInt8) (s : List UInt8) : Option (List UInt8) :=
  match skipWhitespace s with
  | [] => none
  | d :: rest => if d = c then some rest else none

def matchLiteral (lit s : List UInt8) : Option (List UInt8) :=
  if lit.isPrefixOf s then some (s.drop lit.length) else none

/-! ## Strings -/

def hexDigit (c : UInt8) : Option ℕ :=
  if 0x30 ≤ c ∧ c ≤ 0x39 then some (c.toNat - 0x30)
  else if 0x61 ≤ c ∧ c ≤ 0x66 then some (c.toNat - 0x61 + 10)
  else if 0x41 ≤ c ∧ c ≤ 0x46 then some (c.toNat - 0x41 + 10)
  else none

def hex4 (a b c d : UInt8) : Option ℕ := do
  let a ← hexDigit a
  let b ← hexDigit b
  let c ← hexDigit c
  let d ← hexDigit d
  some (((a * 16 + b) * 16 + c) * 16 + d)

def encodeUtf8 (cp : ℕ) : List UInt8 :=
  if cp ≤ 0x7F then [.ofNat cp]
  else if cp ≤ 0x7FF then [.ofNat (0xC0 ||| cp >>> 6), .ofNat (0x80 ||| cp &&& 0x3F)]
  else if cp ≤ 0xFFFF then
    [.ofNat (0xE0 ||| cp >>> 12), .ofNat (0x80 ||| cp >>> 6 &&& 0x3F),
      .ofNat (0x80 ||| cp &&& 0x3F)]
  else if cp ≤ 0x10FFFF then
    [.ofNat (0xF0 ||| cp >>> 18), .ofNat (0x80 ||| cp >>> 12 &&& 0x3F),
      .ofNat (0x80 ||| cp >>> 6 &&& 0x3F), .ofNat (0x80 ||| cp &&& 0x3F)]
  else []

/-- A first half of a pair of surrogates. -/
def isHigh (cp : ℕ) : Prop := 0xD800 ≤ cp ∧ cp ≤ 0xDBFF

/-- A second half. -/
def isLow (cp : ℕ) : Prop := 0xDC00 ≤ cp ∧ cp ≤ 0xDFFF

instance (cp : ℕ) : Decidable (isHigh cp) := inferInstanceAs (Decidable (_ ∧ _))
instance (cp : ℕ) : Decidable (isLow cp) := inferInstanceAs (Decidable (_ ∧ _))

/-- The code point of a pair. -/
def pairPoint (hi lo : ℕ) : ℕ := 0x10000 + (hi - 0xD800) <<< 10 + (lo - 0xDC00)

/-- The escapes of one letter. -/
def shortEscape (esc : UInt8) : Option UInt8 :=
  if esc = 0x22 then some 0x22
  else if esc = 0x5C then some 0x5C
  else if esc = 0x2F then some 0x2F
  else if esc = 0x62 then some 0x08
  else if esc = 0x66 then some 0x0C
  else if esc = 0x6E then some 0x0A
  else if esc = 0x72 then some 0x0D
  else if esc = 0x74 then some 0x09
  else none

/-- Four digits behind `\u`. -/
def codeUnit (s : List UInt8) : Option (ℕ × List UInt8) :=
  match s with
  | a :: b :: c :: d :: rest => (hex4 a b c d).map (·, rest)
  | _ => none

/-- The second escape of a pair. -/
def lowUnit (s : List UInt8) : Option (ℕ × List UInt8) :=
  match s with
  | x :: y :: rest => if x = 0x5C ∧ y = 0x75 then codeUnit rest else none
  | _ => none

/-- `\u`: the bytes that are pushed. -/
def unicodeEscape (s : List UInt8) : Option (List UInt8 × List UInt8) := do
  let (cp, s) ← codeUnit s
  if isHigh cp then
    let (lo, s) ← lowUnit s
    if isLow lo then some (encodeUtf8 (pairPoint cp lo), s) else none
  else some (encodeUtf8 cp, s)

/-- One turn of the loop in `parse_string_raw`, on a text that starts with `c`: the bytes
that are pushed. -/
def stringStep (c : UInt8) (s : List UInt8) : Option (List UInt8 × List UInt8) :=
  if c = 0x5C then
    match s with
    | [] => none
    | esc :: s => if esc = 0x75 then unicodeEscape s else (shortEscape esc).map ([·], s)
  else if c < 0x20 then none
  else some ([c], s)

/-- The loop of `parse_string_raw`, up to the closing quote. -/
def stringLoop : ℕ → List UInt8 → Option (List UInt8 × List UInt8)
  | 0, _ => none
  | _ + 1, [] => none
  | n + 1, c :: s =>
      if c = 0x22 then some ([], s)
      else do
        let (pushed, s) ← stringStep c s
        let (buf, s) ← stringLoop n s
        some (pushed ++ buf, s)

def parseStringRaw (s : List UInt8) : Option (List UInt8 × List UInt8) :=
  match s with
  | [] => none
  | c :: s => if c = 0x22 then stringLoop (s.length + 1) s else none

def parseString (s : List UInt8) : Option (LcnJsonValue × List UInt8) := do
  let (str, s) ← parseStringRaw s
  some (.string str, s)

/-! ## Numbers -/

def digitsValue (ds : List UInt8) : ℕ := ds.foldl (fun n d => 10 * n + (d.toNat - 0x30)) 0

/-- An optional sign. -/
def scanSign (s : List UInt8) : List UInt8 × List UInt8 :=
  match s with
  | [] => ([], [])
  | c :: t => if c = 0x2B ∨ c = 0x2D then ([c], t) else ([], s)

/-- The parts of a decimal text that `strtod` converts. -/
structure Decimal where
  negative : Bool
  int : List UInt8
  fraction : List UInt8
  exponent : ℤ
  /-- The text behind the number. -/
  rest : List UInt8

/-- The digits behind a point. -/
def strtodFraction (s : List UInt8) : List UInt8 × List UInt8 :=
  match s with
  | [] => ([], [])
  | c :: t => if c = 0x2E then (t.takeWhile isDigit, t.dropWhile isDigit) else ([], s)

/-- The exponent, which needs a digit. -/
def strtodExponent (s : List UInt8) : ℤ × List UInt8 :=
  match s with
  | [] => (0, [])
  | c :: t =>
      let (sign, u) := scanSign t
      let ds := u.takeWhile isDigit
      if (c = 0x65 ∨ c = 0x45) ∧ ds ≠ [] then
        (if sign = [0x2D] then -(digitsValue ds : ℤ) else digitsValue ds, u.dropWhile isDigit)
      else (0, s)

def scanDecimal (s : List UInt8) : Decimal :=
  let (sign, s) := scanSign s
  let (fraction, t) := strtodFraction (s.dropWhile isDigit)
  let (exponent, u) := strtodExponent t
  { negative := sign = [0x2D]
    int := s.takeWhile isDigit
    fraction := fraction
    exponent := exponent
    rest := u }

/-- The number that is written. -/
def Decimal.value (d : Decimal) : ℚ :=
  let q := (digitsValue (d.int ++ d.fraction) : ℚ) * 10 ^ (d.exponent - d.fraction.length)
  if d.negative then -q else q

/-- What `strtod` returns. -/
structure Strtod where
  value : Double
  /-- `errno` is `ERANGE`. -/
  erange : Bool
  rest : List UInt8

/-- `strtod`, on decimal texts: the others have a letter that no number of the parser has.
A range error is an overflow or an underflow. -/
def strtod (s : List UInt8) : Strtod :=
  let d := scanDecimal s
  if d.int ++ d.fraction = [] then ⟨ofRat 0, false, s⟩
  else
    { value := ofRat d.value
      erange := (ofRat d.value).isInfinite || decide (Underflows d.value)
      rest := d.rest }

def scanMinus (s : List UInt8) : List UInt8 × List UInt8 :=
  match s with
  | [] => ([], [])
  | c :: t => if c = 0x2D then ([c], t) else ([], s)

/-- The integer part: a zero alone, or no zero at the front. -/
def scanInteger (s : List UInt8) : Option (List UInt8 × List UInt8) :=
  match s with
  | [] => none
  | c :: t =>
      if c = 0x30 then some ([c], t)
      else if 0x31 ≤ c ∧ c ≤ 0x39 then some (c :: t.takeWhile isDigit, t.dropWhile isDigit)
      else none

def scanFraction (s : List UInt8) : Option (List UInt8 × List UInt8) :=
  match s with
  | [] => some ([], [])
  | c :: t =>
      if c = 0x2E then
        if t.takeWhile isDigit = [] then none
        else some (c :: t.takeWhile isDigit, t.dropWhile isDigit)
      else some ([], s)

def scanExponent (s : List UInt8) : Option (List UInt8 × List UInt8) :=
  match s with
  | [] => some ([], [])
  | c :: t =>
      if c = 0x65 ∨ c = 0x45 then
        let (sign, u) := scanSign t
        if u.takeWhile isDigit = [] then none
        else some (c :: sign ++ u.takeWhile isDigit, u.dropWhile isDigit)
      else some ([], s)

/-- The text of a number. -/
def scanNumber (s : List UInt8) : Option (List UInt8 × List UInt8) := do
  let (minus, s) := scanMinus s
  let (int, s) ← scanInteger s
  let (fraction, s) ← scanFraction s
  let (exponent, s) ← scanExponent s
  some (minus ++ int ++ fraction ++ exponent, s)

/-- An overflow is accepted, as an infinity; every other range error is not. -/
def numberOf (text : List UInt8) : Option Double :=
  let r := strtod text
  if r.rest ≠ [] ∨ r.erange then
    if r.erange ∧ r.value.isInfinite then some r.value else none
  else some r.value

def parseNumber (s : List UInt8) : Option (LcnJsonValue × List UInt8) := do
  let (text, s) ← scanNumber s
  let d ← numberOf text
  some (.number d, s)

/-! ## Arrays and objects -/

/-- The loop of `parse_array`. -/
def itemLoop (parseValue : List UInt8 → Option (LcnJsonValue × List UInt8)) :
    ℕ → List LcnJsonValue → List UInt8 → Option (List LcnJsonValue × List UInt8)
  | 0, _, _ => none
  | n + 1, items, s => do
      let (item, s) ← parseValue s
      match consume 0x2C s with
      | some s => itemLoop parseValue n (items ++ [item]) s
      | none => (consume 0x5D s).map (items ++ [item], ·)

def parseArray (parseValue : List UInt8 → Option (LcnJsonValue × List UInt8))
    (s : List UInt8) : Option (LcnJsonValue × List UInt8) := do
  let s ← consume 0x5B s
  if peek s = 0x5D then some (.array [], (skipWhitespace s).tail)
  else
    let (items, s) ← itemLoop parseValue (s.length + 1) [] s
    some (.array items, s)

/-- A key that is there keeps its place and takes the new value. -/
def setMember : List (List UInt8 × LcnJsonValue) → List UInt8 → LcnJsonValue →
    List (List UInt8 × LcnJsonValue)
  | [], key, val => [(key, val)]
  | (k, v) :: members, key, val =>
      if k = key then (k, val) :: members else (k, v) :: setMember members key val

/-- The loop of `parse_object`.  A key is kept as a C string. -/
def memberLoop (parseValue : List UInt8 → Option (LcnJsonValue × List UInt8)) :
    ℕ → List (List UInt8 × LcnJsonValue) → List UInt8 →
      Option (List (List UInt8 × LcnJsonValue) × List UInt8)
  | 0, _, _ => none
  | n + 1, members, s => do
      let (key, s) ← parseStringRaw (skipWhitespace s)
      let s ← consume 0x3A s
      let (val, s) ← parseValue s
      match consume 0x2C s with
      | some s => memberLoop parseValue n (setMember members (cstr key) val) s
      | none => (consume 0x7D s).map (setMember members (cstr key) val, ·)

def parseObject (parseValue : List UInt8 → Option (LcnJsonValue × List UInt8))
    (s : List UInt8) : Option (LcnJsonValue × List UInt8) := do
  let s ← consume 0x7B s
  if peek s = 0x7D then some (.object [], (skipWhitespace s).tail)
  else
    let (members, s) ← memberLoop parseValue (s.length + 1) [] s
    some (.object members, s)

/-! ## Values -/

def parseValue : ℕ → List UInt8 → Option (LcnJsonValue × List UInt8)
  | 0, _ => none
  | n + 1, s =>
      let s := skipWhitespace s
      match s with
      | [] => none
      | c :: _ =>
          if c = 0x22 then parseString s
          else if c = 0x7B then parseObject (parseValue n) s
          else if c = 0x5B then parseArray (parseValue n) s
          else if c = 0x74 then (matchLiteral (ascii "true") s).map (.boolean true, ·)
          else if c = 0x66 then (matchLiteral (ascii "false") s).map (.boolean false, ·)
          else if c = 0x6E then (matchLiteral (ascii "null") s).map (.null, ·)
          else if c = 0x2D ∨ isDigit c then parseNumber s
          else none

def lcnJsonParse (s : List UInt8) : Option LcnJsonValue := do
  let (v, rest) ← parseValue (s.length + 1) s
  if skipWhitespace rest = [] then some v else none

end Limceron.Json
