/-
# `Limceron.Lsp.Fields` — how the language server finds members in a message

`lsp.c` does not parse a message.  It looks for `"key"` in the text from some place on
(`strstr`), skips a colon and white space, and reads what follows.

A member is found where this place is that of the member (`Clear`).  A string is read as
JSON means it where it has only the escapes of the table (`PlainText`); the others are
read without their backslash.
-/
import Limceron.Json.Derives

namespace Limceron.Lsp

open Json

/-- A C string without its NUL. -/
abbrev Bytes := List UInt8

/-! ## The source -/

/-- `strstr`, of a needle that is not empty. -/
def strstr (needle : Bytes) : Bytes → Option Bytes
  | [] => none
  | c :: s => if needle.isPrefixOf (c :: s) then some (c :: s) else strstr needle s

def strchr (c : UInt8) : Bytes → Option Bytes
  | [] => none
  | d :: s => if d = c then some (d :: s) else strchr c s

/-- `"key"` with its quotes. -/
def quoted (key : String) : Bytes := 0x22 :: ascii key ++ [0x22]

/-- What follows the first `"key"`, a colon and white space. -/
def afterKey (json : Bytes) (key : String) : Option Bytes :=
  (strstr (quoted key) json).bind fun p =>
    match skipWhitespace (p.drop (quoted key).length) with
    | [] => none
    | c :: p => if c = 0x3A then some (skipWhitespace p) else none

/-- The byte an escape stands for. -/
def unescape (c : UInt8) : UInt8 :=
  if c = 0x6E then 0x0A else if c = 0x74 then 0x09 else if c = 0x72 then 0x0D else c

/-- The bytes up to a quote, as long as there is room. -/
def readChars : Nat → Bytes → Bytes
  | 0, _ => []
  | _, [] => []
  | room + 1, c :: p =>
      if c = 0x22 then []
      else if c = 0x5C then
        match p with
        | [] => [c]
        | e :: p => unescape e :: readChars room p
      else c :: readChars room p

def lspJsonGetString (json : Bytes) (key : String) (bufsz : Nat) : Option Bytes :=
  (afterKey json key).bind fun p =>
    match p with
    | [] => none
    | c :: p => if c = 0x22 then some (readChars (bufsz - 1) p) else none

/-- `strtol`, of a text that starts with a digit or a minus. -/
def strtol (p : Bytes) : Int :=
  let digits := (if p.head? = some 0x2D then p.tail else p).takeWhile isDigit
  let n : Int := (digits.foldl (fun n d => n * 10 + (d.toNat - 0x30)) 0 : Nat)
  max (-2 ^ 63) (min (2 ^ 63 - 1) (if p.head? = some 0x2D then -n else n))

/-- An integer starts here. -/
def startsInt (p : Bytes) : Bool := p.head?.any fun c => c = 0x2D || isDigit c

def lspJsonGetInt (json : Bytes) (key : String) : Int :=
  match afterKey json key with
  | none => -1
  | some p => if startsInt p then strtol p else -1

def jsonFindParams (json : Bytes) : Option Bytes := afterKey json "params"

def jsonFindObject (json : Bytes) (key : String) : Option Bytes :=
  (afterKey json key).filter fun p => p.head? = some 0x7B

/-! ## Members of an object -/

/-- The value of a member of an object: of the first one, if there are several. -/
def field (t : Tree) (key : String) : Option Tree :=
  match t with
  | .object ms => (ms.find? fun m => decode m.1 = ascii key).map Prod.snd
  | _ => none

/-- In a text that starts with the members of an object, the member `key` stands at `place`,
and its value `v` starts `after`. -/
inductive MemberAt (key : String) (v : Tree) : List (List Piece × Tree) → Bytes → Bytes →
    Bytes → Prop
  | here {ms : List (List Piece × Tree)} {w₁ w₂ w₃ u tail : Bytes} : Space w₁ → Space w₂ →
      Space w₃ → ValueText v u →
      MemberAt key v (((ascii key).map .raw, v) :: ms)
        (w₁ ++ (quoted key ++ (w₂ ++ 0x3A :: (w₃ ++ (u ++ tail)))))
        (quoted key ++ (w₂ ++ 0x3A :: (w₃ ++ (u ++ tail)))) (u ++ tail)
  | later {m : List Piece × Tree} {ms : List (List Piece × Tree)} {u s place after : Bytes} :
      MemberText m u → decode m.1 ≠ ascii key → MemberAt key v ms s place after →
      MemberAt key v (m :: ms) (u ++ 0x2C :: s) place after

/-- In a text that starts with the object `t`, the first `"key"` is that of its member of
that name, whose value `v` starts `after`. -/
inductive Clear (key : String) (t v : Tree) (s after : Bytes) : Prop
  | mk {ms : List (List Piece × Tree)} {w body place : Bytes} (htree : t = .object ms)
      (hspace : Space w) (htext : s = w ++ 0x7B :: body)
      (hmember : MemberAt key v ms body place after) (hfirst : strstr (quoted key) s = some place)

/-- A piece that the table of escapes has. -/
def PlainPiece : Piece → Prop
  | .raw _ => True
  | .short b => b ≠ 0x08 ∧ b ≠ 0x0C
  | .code _ => False
  | .pair _ _ => False

def PlainText (ps : List Piece) : Prop := ∀ p ∈ ps, PlainPiece p

theorem decode_raw (u : Bytes) : decode (u.map .raw) = u := by
  induction u with
  | nil => rfl
  | cons c u ih =>
      rw [List.map_cons, decode, List.flatMap_cons, ← decode, ih]
      rfl

theorem MemberAt.field {key : String} {v : Tree} {ms : List (List Piece × Tree)}
    {s place after : Bytes} (h : MemberAt key v ms s place after) :
    field (.object ms) key = some v := by
  induction h with
  | here =>
      simp [Lsp.field, decode_raw]
  | later _ hne _ ih =>
      rw [Lsp.field, List.find?_cons_of_neg (by simpa only [decide_eq_true_eq] using hne)]
      exact ih

theorem Clear.field {key : String} {t v : Tree} {s after : Bytes} (h : Clear key t v s after) :
    field t key = some v := by
  obtain ⟨rfl, -, -, hmember, -⟩ := h
  exact hmember.field

/-- What stands at the place of a member. -/
theorem MemberAt.text {key : String} {v : Tree} {ms : List (List Piece × Tree)}
    {s place after : Bytes} (h : MemberAt key v ms s place after) :
    ∃ w₂ w₃ u tail, Space w₂ ∧ Space w₃ ∧ ValueText v u ∧ after = u ++ tail ∧
      place = quoted key ++ (w₂ ++ 0x3A :: (w₃ ++ after)) := by
  induction h with
  | here _ hw₂ hw₃ hu => exact ⟨_, _, _, _, hw₂, hw₃, hu, rfl, rfl⟩
  | later _ _ _ ih => exact ih

/-- A value does not start with white space. -/
theorem ValueText.skip {v : Tree} {u : Bytes} (h : ValueText v u) (tail : Bytes) :
    skipWhitespace (u ++ tail) = u ++ tail := by
  obtain ⟨c, u', rfl, hc, -⟩ := h.head
  exact skipWhitespace_cons hc _

theorem Clear.afterKey {key : String} {t v : Tree} {s after : Bytes} (h : Clear key t v s after) :
    afterKey s key = some after := by
  obtain ⟨-, -, -, hmember, hfirst⟩ := h
  obtain ⟨w₂, w₃, u, tail, hw₂, hw₃, hu, rfl, rfl⟩ := hmember.text
  rw [Lsp.afterKey, hfirst, Option.bind_some, List.drop_left, skipWhitespace_append hw₂,
    skipWhitespace_cons (by decide)]
  dsimp only
  rw [if_pos rfl, skipWhitespace_append hw₃, ValueText.skip hu]

/-- The text of the value starts there. -/
theorem Clear.value {key : String} {t v : Tree} {s after : Bytes} (h : Clear key t v s after) :
    ∃ u tail, ValueText v u ∧ after = u ++ tail := by
  obtain ⟨-, -, -, hmember, -⟩ := h
  obtain ⟨-, -, u, tail, -, -, hu, hafter, -⟩ := hmember.text
  exact ⟨u, tail, hu, hafter⟩

/-! ## Strings -/

theorem unescape_short {e b : UInt8} (h : ShortEscape e b) (hplain : b ≠ 0x08 ∧ b ≠ 0x0C) :
    unescape e = b := by
  cases h with
  | backspace => exact absurd rfl hplain.1
  | formFeed => exact absurd rfl hplain.2
  | _ => rfl

theorem readChars_raw (room : Nat) {c : UInt8} (hquote : c ≠ 0x22) (hbackslash : c ≠ 0x5C)
    (p : Bytes) : readChars (room + 1) (c :: p) = c :: readChars room p := by
  rw [readChars.eq_def]
  dsimp only
  rw [if_neg hquote, if_neg hbackslash]

/-- A string of plain pieces is read as JSON means it. -/
theorem readChars_plain {ps : List Piece} {u : Bytes} (h : Chars ps u) (hplain : PlainText ps)
    {room : Nat} (hroom : (decode ps).length ≤ room) (rest : Bytes) :
    readChars room (u ++ 0x22 :: rest) = decode ps := by
  induction h generalizing room with
  | nil =>
      cases room with
      | zero => rfl
      | succ room => rfl
  | @cons p ps u v hp _ ih =>
      have hp' := hplain p List.mem_cons_self
      have hps : PlainText ps := fun q hq => hplain q (List.mem_cons_of_mem _ hq)
      have hsplit : decode (p :: ps) = p.decode ++ decode ps := List.flatMap_cons
      rw [hsplit] at hroom ⊢
      cases hp with
      | @raw b hcontrol hquote hbackslash =>
          cases room with
          | zero => cases hroom
          | succ room =>
              have hle : (decode ps).length ≤ room := Nat.le_of_succ_le_succ hroom
              rw [List.append_assoc, List.singleton_append, readChars_raw room hquote hbackslash,
                ih hps hle]
              rfl
      | @short e b hshort =>
          cases room with
          | zero => cases hroom
          | succ room =>
              have hle : (decode ps).length ≤ room := Nat.le_of_succ_le_succ hroom
              rw [List.append_assoc, List.cons_append, List.singleton_append, readChars,
                if_neg (by decide), if_pos rfl, unescape_short hshort hp', ih hps hle]
              rfl
      | code => cases hp'
      | pair => cases hp'

/-- A member that is a plain string is read. -/
theorem Clear.getString {key : String} {t : Tree} {ps : List Piece} {s after : Bytes}
    (h : Clear key t (.string ps) s after) (hplain : PlainText ps) {bufsz : Nat}
    (hfits : (decode ps).length < bufsz) :
    lspJsonGetString s key bufsz = some (decode ps) := by
  obtain ⟨u, tail, hu, rfl⟩ := h.value
  rw [lspJsonGetString, h.afterKey, Option.bind_some]
  cases hu with
  | @string _ u hchars =>
      rw [List.append_assoc, List.cons_append]
      dsimp only
      rw [if_pos rfl, List.singleton_append, readChars_plain hchars hplain (by omega)]

/-- A member that is an object is found. -/
theorem Clear.findObject {key : String} {t : Tree} {ms : List (List Piece × Tree)}
    {s after : Bytes} (h : Clear key t (.object ms) s after) :
    jsonFindObject s key = some after := by
  obtain ⟨u, tail, hu, rfl⟩ := h.value
  rw [jsonFindObject, h.afterKey]
  cases hu with
  | emptyObject _ => rfl
  | object _ => rfl

end Limceron.Lsp
