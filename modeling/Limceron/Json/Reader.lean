/-
# `Limceron.Json.Reader` — reading a text as a syntax tree

The parser builds its values while it reads.  Here the reading stands alone:

| reader         | the parser's                  |
|----------------|-------------------------------|
| `readPieces`   | `stringLoop`                  |
| `readItems`    | `itemLoop`                    |
| `readMembers`  | `memberLoop`                  |
| `readValue`    | `parseValue`                  |

`Tree.eval` makes the value of a tree: it decodes the strings, converts the numbers
and enters the members of an object one after the other.  The parser is the reading,
and then the value of what was read (`lcnJsonParse_eq`).
-/
import Limceron.Json.Grammar

namespace Limceron.Json

/-! ## The value of a tree -/

def Piece.decode : Piece → List UInt8
  | .raw b => [b]
  | .short b => [b]
  | .code cp => encodeUtf8 cp
  | .pair hi lo => encodeUtf8 (pairPoint hi lo)

def decode (ps : List Piece) : List UInt8 := ps.flatMap Piece.decode

mutual

def Tree.eval : Tree → Option LcnJsonValue
  | .null => some .null
  | .boolean b => some (.boolean b)
  | .number text => (numberOf text).map .number
  | .string ps => some (.string (decode ps))
  | .array ts => (evalItems ts).map .array
  | .object ms => (evalMembers [] ms).map .object

def evalItems : List Tree → Option (List LcnJsonValue)
  | [] => some []
  | t :: ts => t.eval.bind fun v => (evalItems ts).map (v :: ·)

/-- The members of an object, behind those that are there. -/
def evalMembers (members : List (List UInt8 × LcnJsonValue)) :
    List (List Piece × Tree) → Option (List (List UInt8 × LcnJsonValue))
  | [] => some members
  | (key, t) :: ms =>
      t.eval.bind fun v => evalMembers (setMember members (cstr (decode key)) v) ms

end

/-! ## Reading -/

def readUnicode (s : List UInt8) : Option (Piece × List UInt8) := do
  let (cp, s) ← codeUnit s
  if isHigh cp then
    let (lo, s) ← lowUnit s
    if isLow lo then some (.pair cp lo, s) else none
  else some (.code cp, s)

def readPiece (c : UInt8) (s : List UInt8) : Option (Piece × List UInt8) :=
  if c = 0x5C then
    match s with
    | [] => none
    | esc :: s => if esc = 0x75 then readUnicode s else (shortEscape esc).map (.short ·, s)
  else if c < 0x20 then none
  else some (.raw c, s)

def readPieces : ℕ → List UInt8 → Option (List Piece × List UInt8)
  | 0, _ => none
  | _ + 1, [] => none
  | n + 1, c :: s =>
      if c = 0x22 then some ([], s)
      else (readPiece c s).bind fun (p, s) => (readPieces n s).map fun (ps, s) => (p :: ps, s)

def readString (s : List UInt8) : Option (List Piece × List UInt8) :=
  match s with
  | [] => none
  | c :: s => if c = 0x22 then readPieces (s.length + 1) s else none

def readItems (readValue : List UInt8 → Option (Tree × List UInt8)) :
    ℕ → List UInt8 → Option (List Tree × List UInt8)
  | 0, _ => none
  | n + 1, s =>
      (readValue s).bind fun (t, s) =>
        match consume 0x2C s with
        | some s => (readItems readValue n s).map fun (ts, s) => (t :: ts, s)
        | none => (consume 0x5D s).map ([t], ·)

def readArray (readValue : List UInt8 → Option (Tree × List UInt8)) (s : List UInt8) :
    Option (Tree × List UInt8) :=
  (consume 0x5B s).bind fun s =>
    if peek s = 0x5D then some (.array [], (skipWhitespace s).tail)
    else (readItems readValue (s.length + 1) s).map fun (ts, s) => (.array ts, s)

/-- A key, a colon and a value. -/
def readMember (readValue : List UInt8 → Option (Tree × List UInt8)) (s : List UInt8) :
    Option ((List Piece × Tree) × List UInt8) :=
  (readString (skipWhitespace s)).bind fun (key, s) =>
    (consume 0x3A s).bind fun s => (readValue s).map fun (t, s) => ((key, t), s)

def readMembers (readValue : List UInt8 → Option (Tree × List UInt8)) :
    ℕ → List UInt8 → Option (List (List Piece × Tree) × List UInt8)
  | 0, _ => none
  | n + 1, s =>
      (readMember readValue s).bind fun (m, s) =>
        match consume 0x2C s with
        | some s => (readMembers readValue n s).map fun (ms, s) => (m :: ms, s)
        | none => (consume 0x7D s).map ([m], ·)

def readObject (readValue : List UInt8 → Option (Tree × List UInt8)) (s : List UInt8) :
    Option (Tree × List UInt8) :=
  (consume 0x7B s).bind fun s =>
    if peek s = 0x7D then some (.object [], (skipWhitespace s).tail)
    else (readMembers readValue (s.length + 1) s).map fun (ms, s) => (.object ms, s)

/-- Reading a value that starts with the byte `c`. -/
def readFrom (readValue : List UInt8 → Option (Tree × List UInt8)) (c : UInt8)
    (s : List UInt8) : Option (Tree × List UInt8) :=
  if c = 0x22 then (readString s).map fun (ps, s) => (.string ps, s)
  else if c = 0x7B then readObject readValue s
  else if c = 0x5B then readArray readValue s
  else if c = 0x74 then (matchLiteral (ascii "true") s).map (.boolean true, ·)
  else if c = 0x66 then (matchLiteral (ascii "false") s).map (.boolean false, ·)
  else if c = 0x6E then (matchLiteral (ascii "null") s).map (.null, ·)
  else if c = 0x2D ∨ isDigit c then (scanNumber s).map fun (text, s) => (.number text, s)
  else none

def readValue : ℕ → List UInt8 → Option (Tree × List UInt8)
  | 0, _ => none
  | n + 1, s =>
      match skipWhitespace s with
      | [] => none
      | c :: rest => readFrom (readValue n) c (c :: rest)

def readText (s : List UInt8) : Option Tree :=
  (readValue (s.length + 1) s).bind fun (t, rest) =>
    if skipWhitespace rest = [] then some t else none

/-! ## The parser reads and evaluates -/

theorem unicodeEscape_eq (s : List UInt8) :
    unicodeEscape s = (readUnicode s).map fun (p, s) => (p.decode, s) := by
  unfold unicodeEscape readUnicode
  rcases codeUnit s with _ | ⟨cp, s⟩
  · rfl
  · by_cases hhigh : isHigh cp
    · simp only [Option.bind_eq_bind, Option.bind_some, if_pos hhigh]
      rcases lowUnit s with _ | ⟨lo, s⟩
      · rfl
      · by_cases hlow : isLow lo
        · simp [hlow, Piece.decode]
        · simp [hlow]
    · simp [hhigh, Piece.decode]

theorem stringStep_eq (c : UInt8) (s : List UInt8) :
    stringStep c s = (readPiece c s).map fun (p, s) => (p.decode, s) := by
  unfold stringStep readPiece
  split
  · cases s with
    | nil => rfl
    | cons esc s =>
        dsimp only
        split
        · exact unicodeEscape_eq s
        · cases shortEscape esc with
          | none => rfl
          | some b => rfl
  · split
    · rfl
    · rfl

theorem stringLoop_eq (n : ℕ) (s : List UInt8) :
    stringLoop n s = (readPieces n s).map fun (ps, s) => (decode ps, s) := by
  induction n generalizing s with
  | zero => rfl
  | succ n ih =>
      cases s with
      | nil => rfl
      | cons c s =>
          rw [stringLoop, readPieces]
          split
          · rfl
          · rw [stringStep_eq]
            rcases readPiece c s with _ | ⟨p, s⟩
            · rfl
            · simp only [Option.map_some, Option.bind_eq_bind, Option.bind_some, ih]
              rcases readPieces n s with _ | ⟨ps, s⟩
              · rfl
              · rfl

theorem parseStringRaw_eq (s : List UInt8) :
    parseStringRaw s = (readString s).map fun (ps, s) => (decode ps, s) := by
  cases s with
  | nil => rfl
  | cons c s =>
      unfold parseStringRaw readString
      dsimp only
      split
      · exact stringLoop_eq _ s
      · rfl

/-- The value of what a reader read. -/
def evalRead (r : Option (Tree × List UInt8)) : Option (LcnJsonValue × List UInt8) :=
  r.bind fun (t, s) => t.eval.map (·, s)

section Loops

variable {parse : List UInt8 → Option (LcnJsonValue × List UInt8)}
  {read : List UInt8 → Option (Tree × List UInt8)}

theorem itemLoop_eq (h : ∀ s, parse s = evalRead (read s)) (n : ℕ) (items : List LcnJsonValue)
    (s : List UInt8) :
    itemLoop parse n items s =
      (readItems read n s).bind fun (ts, s) => (evalItems ts).map fun vs => (items ++ vs, s) := by
  induction n generalizing items s with
  | zero => rfl
  | succ n ih =>
      rw [itemLoop, readItems, h, evalRead]
      rcases read s with _ | ⟨t, s⟩
      · rfl
      · cases hv : t.eval with
        | none =>
            simp only [Option.bind_some, hv, Option.map_none, Option.bind_eq_bind,
              Option.bind_none]
            cases consume 0x2C s with
            | none => cases consume 0x5D s <;> simp [evalItems, hv]
            | some s =>
                dsimp only
                rcases readItems read n s with _ | ⟨ts, s⟩
                · rfl
                · simp [evalItems, hv]
        | some v =>
            simp only [Option.bind_some, hv, Option.map_some, Option.bind_eq_bind]
            cases consume 0x2C s with
            | none => cases consume 0x5D s <;> simp [evalItems, hv]
            | some s =>
                simp only [ih]
                rcases readItems read n s with _ | ⟨ts, s⟩
                · rfl
                · cases hvs : evalItems ts <;> simp [evalItems, hv, hvs]

theorem parseArray_eq (h : ∀ s, parse s = evalRead (read s)) (s : List UInt8) :
    parseArray parse s = evalRead (readArray read s) := by
  unfold parseArray readArray evalRead
  cases consume 0x5B s with
  | none => rfl
  | some s =>
      simp only [Option.bind_eq_bind, Option.bind_some]
      split
      · rfl
      · rw [itemLoop_eq h]
        rcases readItems read (s.length + 1) s with _ | ⟨ts, s⟩
        · rfl
        · cases hvs : evalItems ts <;> simp [Tree.eval, hvs]

theorem memberLoop_eq (h : ∀ s, parse s = evalRead (read s)) (n : ℕ)
    (members : List (List UInt8 × LcnJsonValue)) (s : List UInt8) :
    memberLoop parse n members s =
      (readMembers read n s).bind fun (ms, s) => (evalMembers members ms).map (·, s) := by
  induction n generalizing members s with
  | zero => rfl
  | succ n ih =>
      rw [memberLoop, readMembers, parseStringRaw_eq, readMember]
      rcases readString (skipWhitespace s) with _ | ⟨key, s⟩
      · rfl
      simp only [Option.map_some, Option.bind_eq_bind, Option.bind_some]
      cases consume 0x3A s with
      | none => rfl
      | some s =>
          simp only [Option.bind_some, h, evalRead]
          rcases read s with _ | ⟨t, s⟩
          · rfl
          · cases hv : t.eval with
            | none =>
                simp only [Option.bind_some, hv, Option.map_none, Option.bind_none,
                  Option.map_some]
                cases consume 0x2C s with
                | none => cases consume 0x7D s <;> simp [evalMembers, hv]
                | some s =>
                    dsimp only
                    rcases readMembers read n s with _ | ⟨ms, s⟩
                    · rfl
                    · simp [evalMembers, hv]
            | some v =>
                simp only [Option.bind_some, hv, Option.map_some]
                cases consume 0x2C s with
                | none => cases consume 0x7D s <;> simp [evalMembers, hv]
                | some s =>
                    simp only [ih]
                    rcases readMembers read n s with _ | ⟨ms, s⟩
                    · rfl
                    · simp [evalMembers, hv]

theorem parseObject_eq (h : ∀ s, parse s = evalRead (read s)) (s : List UInt8) :
    parseObject parse s = evalRead (readObject read s) := by
  unfold parseObject readObject evalRead
  cases consume 0x7B s with
  | none => rfl
  | some s =>
      simp only [Option.bind_eq_bind, Option.bind_some]
      split
      · rfl
      · rw [memberLoop_eq h]
        rcases readMembers read (s.length + 1) s with _ | ⟨ms, s⟩
        · rfl
        · cases hvs : evalMembers [] ms <;> simp [Tree.eval, hvs]

end Loops

theorem parseString_eq (s : List UInt8) :
    parseString s = evalRead ((readString s).map fun (ps, s) => (.string ps, s)) := by
  rw [parseString, parseStringRaw_eq, evalRead]
  rcases readString s with _ | ⟨ps, s⟩
  · rfl
  · rfl

theorem parseNumber_eq (s : List UInt8) :
    parseNumber s = evalRead ((scanNumber s).map fun (text, s) => (.number text, s)) := by
  rw [parseNumber, evalRead]
  rcases scanNumber s with _ | ⟨text, s⟩
  · rfl
  · cases hd : numberOf text <;> simp [Tree.eval, hd]

theorem literal_eq {t : Tree} {v : LcnJsonValue} (h : t.eval = some v) (r : Option (List UInt8)) :
    r.map (v, ·) = evalRead (r.map (t, ·)) := by
  cases r with
  | none => rfl
  | some s => simp [evalRead, h]

theorem parseValue_eq (n : ℕ) (s : List UInt8) : parseValue n s = evalRead (readValue n s) := by
  induction n generalizing s with
  | zero => rfl
  | succ n ih =>
      rw [parseValue, readValue]
      rcases skipWhitespace s with _ | ⟨c, rest⟩
      · rfl
      · unfold readFrom
        dsimp only
        split_ifs
        · exact parseString_eq _
        · exact parseObject_eq ih _
        · exact parseArray_eq ih _
        · exact literal_eq rfl _
        · exact literal_eq rfl _
        · exact literal_eq rfl _
        · exact parseNumber_eq _
        · rfl

theorem lcnJsonParse_eq (s : List UInt8) : lcnJsonParse s = (readText s).bind Tree.eval := by
  rw [lcnJsonParse, readText, parseValue_eq, evalRead]
  rcases readValue (s.length + 1) s with _ | ⟨t, rest⟩
  · rfl
  · cases hv : t.eval with
    | none => by_cases hrest : skipWhitespace rest = [] <;> simp [hrest, hv]
    | some v => by_cases hrest : skipWhitespace rest = [] <;> simp [hrest, hv]

end Limceron.Json
