/-
# `Limceron.Json.Grammar` — the grammar of JSON texts

RFC 8259, over bytes: a byte from `0x80` on is a character of its own.  A text is
derived together with its syntax tree, which keeps what a text says and not how:

| tree              | text                                                 |
|-------------------|------------------------------------------------------|
| `number`          | the characters of a number                           |
| `string`          | a list of pieces: bytes, and the escapes by kind     |
| `array`, `object` | the parts, in the order of the text                  |

The grammar here is wider in one place: the escape of a second surrogate may stand
alone.  Where a text has none (`LoneLow`), it is the grammar of the RFC, with the
escapes of surrogates in pairs.
-/
import Limceron.Json.Parse

namespace Limceron.Json

/-! ## Syntax trees -/

/-- A character of a string, as it is written. -/
inductive Piece where
  | raw (b : UInt8)
  /-- An escape of one letter, for the byte `b`. -/
  | short (b : UInt8)
  | code (cp : ℕ)
  | pair (hi lo : ℕ)

inductive Tree where
  | null
  | boolean (b : Bool)
  | number (text : List UInt8)
  | string (pieces : List Piece)
  | array (items : List Tree)
  | object (members : List (List Piece × Tree))

/-! ## Strings -/

inductive ShortEscape : UInt8 → UInt8 → Prop
  | quote : ShortEscape 0x22 0x22
  | backslash : ShortEscape 0x5C 0x5C
  | slash : ShortEscape 0x2F 0x2F
  | backspace : ShortEscape 0x62 0x08
  | formFeed : ShortEscape 0x66 0x0C
  | lineFeed : ShortEscape 0x6E 0x0A
  | carriageReturn : ShortEscape 0x72 0x0D
  | tab : ShortEscape 0x74 0x09

inductive HexDigit : UInt8 → ℕ → Prop
  | digit {n : ℕ} : n < 10 → HexDigit (.ofNat (0x30 + n)) n
  | upper {n : ℕ} : n < 6 → HexDigit (.ofNat (0x41 + n)) (n + 10)
  | lower {n : ℕ} : n < 6 → HexDigit (.ofNat (0x61 + n)) (n + 10)

/-- Four digits of a code unit. -/
inductive CodeUnit : ℕ → List UInt8 → Prop
  | mk {a b c d : UInt8} {x y z w : ℕ} : HexDigit a x → HexDigit b y → HexDigit c z →
      HexDigit d w → CodeUnit (((x * 16 + y) * 16 + z) * 16 + w) [a, b, c, d]

inductive PieceText : Piece → List UInt8 → Prop
  | raw {b : UInt8} : 0x20 ≤ b → b ≠ 0x22 → b ≠ 0x5C → PieceText (.raw b) [b]
  | short {e b : UInt8} : ShortEscape e b → PieceText (.short b) [0x5C, e]
  | code {cp : ℕ} {u : List UInt8} : CodeUnit cp u → ¬ isHigh cp →
      PieceText (.code cp) (0x5C :: 0x75 :: u)
  | pair {hi lo : ℕ} {u v : List UInt8} : CodeUnit hi u → isHigh hi → CodeUnit lo v → isLow lo →
      PieceText (.pair hi lo) (0x5C :: 0x75 :: u ++ 0x5C :: 0x75 :: v)

/-- What stands between the quotes. -/
inductive Chars : List Piece → List UInt8 → Prop
  | nil : Chars [] []
  | cons {p : Piece} {ps : List Piece} {u v : List UInt8} : PieceText p u → Chars ps v →
      Chars (p :: ps) (u ++ v)

/-! ## Numbers -/

def Digits (ds : List UInt8) : Prop := ∀ d ∈ ds, isDigit d = true

inductive IntegerText : List UInt8 → Prop
  | zero : IntegerText [0x30]
  | digits {c : UInt8} {ds : List UInt8} : 0x31 ≤ c → c ≤ 0x39 → Digits ds → IntegerText (c :: ds)

inductive FractionText : List UInt8 → Prop
  | absent : FractionText []
  | digits {ds : List UInt8} : ds ≠ [] → Digits ds → FractionText (0x2E :: ds)

inductive SignText : List UInt8 → Prop
  | absent : SignText []
  | plus : SignText [0x2B]
  | minus : SignText [0x2D]

inductive ExponentText : List UInt8 → Prop
  | absent : ExponentText []
  | digits {e : UInt8} {sign ds : List UInt8} : e = 0x65 ∨ e = 0x45 → SignText sign → ds ≠ [] →
      Digits ds → ExponentText (e :: sign ++ ds)

inductive MinusText : List UInt8 → Prop
  | absent : MinusText []
  | minus : MinusText [0x2D]

inductive NumberText : List UInt8 → Prop
  | mk {minus int fraction exponent : List UInt8} : MinusText minus → IntegerText int →
      FractionText fraction → ExponentText exponent →
      NumberText (minus ++ int ++ fraction ++ exponent)

/-! ## Values -/

def Space (w : List UInt8) : Prop := ∀ c ∈ w, isSpace c = true

mutual

inductive ValueText : Tree → List UInt8 → Prop
  | null : ValueText .null (ascii "null")
  | yes : ValueText (.boolean true) (ascii "true")
  | no : ValueText (.boolean false) (ascii "false")
  | number {u : List UInt8} : NumberText u → ValueText (.number u) u
  | string {ps : List Piece} {u : List UInt8} : Chars ps u →
      ValueText (.string ps) (0x22 :: u ++ [0x22])
  | emptyArray {w : List UInt8} : Space w → ValueText (.array []) (0x5B :: w ++ [0x5D])
  | array {ts : List Tree} {u : List UInt8} : ItemsText ts u →
      ValueText (.array ts) (0x5B :: u ++ [0x5D])
  | emptyObject {w : List UInt8} : Space w → ValueText (.object []) (0x7B :: w ++ [0x7D])
  | object {ms : List (List Piece × Tree)} {u : List UInt8} : MembersText ms u →
      ValueText (.object ms) (0x7B :: u ++ [0x7D])

/-- Values with commas between them. -/
inductive ItemsText : List Tree → List UInt8 → Prop
  | one {t : Tree} {w₁ u w₂ : List UInt8} : Space w₁ → ValueText t u → Space w₂ →
      ItemsText [t] (w₁ ++ u ++ w₂)
  | more {t : Tree} {ts : List Tree} {w₁ u w₂ v : List UInt8} : Space w₁ → ValueText t u →
      Space w₂ → ItemsText ts v → ItemsText (t :: ts) (w₁ ++ u ++ w₂ ++ 0x2C :: v)

/-- A key, a colon and a value. -/
inductive MemberText : List Piece × Tree → List UInt8 → Prop
  | mk {key : List Piece} {t : Tree} {w₁ k w₂ w₃ u w₄ : List UInt8} : Space w₁ → Chars key k →
      Space w₂ → Space w₃ → ValueText t u → Space w₄ →
      MemberText (key, t) (w₁ ++ 0x22 :: k ++ 0x22 :: w₂ ++ 0x3A :: (w₃ ++ u ++ w₄))

inductive MembersText : List (List Piece × Tree) → List UInt8 → Prop
  | one {m : List Piece × Tree} {u : List UInt8} : MemberText m u → MembersText [m] u
  | more {m : List Piece × Tree} {ms : List (List Piece × Tree)} {u v : List UInt8} :
      MemberText m u → MembersText ms v → MembersText (m :: ms) (u ++ 0x2C :: v)

end

/-- A value, with white space around it. -/
inductive JsonText : Tree → List UInt8 → Prop
  | mk {t : Tree} {w₁ u w₂ : List UInt8} : Space w₁ → ValueText t u → Space w₂ →
      JsonText t (w₁ ++ u ++ w₂)

/-! ## What stands in a tree -/

mutual

/-- The strings of a tree, keys included. -/
def Tree.strings : Tree → List (List Piece)
  | .null => []
  | .boolean _ => []
  | .number _ => []
  | .string ps => [ps]
  | .array ts => itemStrings ts
  | .object ms => memberStrings ms

def itemStrings : List Tree → List (List Piece)
  | [] => []
  | t :: ts => t.strings ++ itemStrings ts

def memberStrings : List (List Piece × Tree) → List (List Piece)
  | [] => []
  | (key, t) :: ms => key :: t.strings ++ memberStrings ms

end

mutual

/-- The numbers of a tree. -/
def Tree.numbers : Tree → List (List UInt8)
  | .null => []
  | .boolean _ => []
  | .number text => [text]
  | .string _ => []
  | .array ts => itemNumbers ts
  | .object ms => memberNumbers ms

def itemNumbers : List Tree → List (List UInt8)
  | [] => []
  | t :: ts => t.numbers ++ itemNumbers ts

def memberNumbers : List (List Piece × Tree) → List (List UInt8)
  | [] => []
  | (_, t) :: ms => t.numbers ++ memberNumbers ms

end

/-- The escape of a second surrogate, with no first one before it. -/
def Piece.LoneLow : Piece → Prop
  | .code cp => isLow cp
  | _ => False

def Tree.LoneLow (t : Tree) : Prop := ∃ ps ∈ t.strings, ∃ p ∈ ps, p.LoneLow

/-- The text is one value of the RFC's grammar. -/
def Rfc (s : List UInt8) : Prop := ∃ t, JsonText t s ∧ ¬ t.LoneLow

end Limceron.Json
