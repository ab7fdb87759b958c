/-
# `Limceron.Lib.WatStrings` — string literals of the WebAssembly text format

A literal stands between quotes and denotes bytes:

| written | denotes |
| :-- | :-- |
| a character from `0x20` on but `"`, `\` and delete | itself |
| `\t` `\n` `\r` `\"` `\'` `\\` | one byte |
| `\` and two hexadecimal digits | the byte |
| `\u{…}` | the code point, in UTF-8 |

A byte from `0x80` on is a character of its own here.  `readLiteral` reads a
literal off a text; `write` puts a text of plain characters and quotes between
quotes, and reading gives it back (`readLiteral_write`).
-/
import Mathlib.Data.List.Basic

namespace WatStrings

/-! ## Reading -/

def quote : UInt8 := 0x22

def backslash : UInt8 := 0x5C

/-- The characters that stand for themselves. -/
def Plain (c : UInt8) : Prop := 0x20 ≤ c ∧ c ≠ quote ∧ c ≠ backslash ∧ c ≠ 0x7F

instance : DecidablePred Plain := fun c =>
  inferInstanceAs (Decidable (0x20 ≤ c ∧ c ≠ quote ∧ c ≠ backslash ∧ c ≠ 0x7F))

def hexValue (c : UInt8) : Option Nat :=
  if 0x30 ≤ c ∧ c ≤ 0x39 then some (c.toNat - 0x30)
  else if 0x41 ≤ c ∧ c ≤ 0x46 then some (c.toNat - 0x41 + 10)
  else if 0x61 ≤ c ∧ c ≤ 0x66 then some (c.toNat - 0x61 + 10)
  else none

/-- The byte of an escape of one letter. -/
def letter (c : UInt8) : Option UInt8 :=
  if c = 0x74 then some 0x09
  else if c = 0x6E then some 0x0A
  else if c = 0x72 then some 0x0D
  else if c = quote ∨ c = 0x27 ∨ c = backslash then some c
  else none

/-- The digits of a number, with single underscores between them. -/
def readHexNum (n : Nat) : List UInt8 → Option (Nat × List UInt8)
  | [] => none
  | c :: s =>
      match hexValue c with
      | none => none
      | some d =>
          match s with
          | 0x5F :: c' :: s' =>
              if (hexValue c').isSome then readHexNum (16 * n + d) (c' :: s') else none
          | c' :: s' =>
              if (hexValue c').isSome then readHexNum (16 * n + d) (c' :: s')
              else some (16 * n + d, c' :: s')
          | [] => some (16 * n + d, [])

/-- What stands behind `\u`. -/
def readCode : List UInt8 → Option (List UInt8 × List UInt8)
  | 0x7B :: s =>
      match readHexNum 0 s with
      | some (n, 0x7D :: s) =>
          if n.isValidChar then some (String.utf8EncodeChar (Char.ofNat n), s) else none
      | _ => none
  | _ => none

/-- What stands behind a backslash. -/
def readEscape : List UInt8 → Option (List UInt8 × List UInt8)
  | [] => none
  | c :: s =>
      if c = 0x75 then readCode s
      else
        match letter c, s with
        | some b, s => some ([b], s)
        | none, d :: s =>
            (hexValue c).bind fun x => (hexValue d).map fun y => ([UInt8.ofNat (16 * x + y)], s)
        | none, [] => none

def readElem : List UInt8 → Option (List UInt8 × List UInt8)
  | [] => none
  | c :: s =>
      if c = backslash then readEscape s
      else if Plain c then some ([c], s)
      else none

/-- The characters up to the quote that ends them. -/
def readChars : Nat → List UInt8 → Option (List UInt8 × List UInt8)
  | 0, _ => none
  | _ + 1, [] => none
  | n + 1, c :: s =>
      if c = quote then some ([], s)
      else (readElem (c :: s)).bind fun e => (readChars n e.2).map fun r => (e.1 ++ r.1, r.2)

def readLiteral : List UInt8 → Option (List UInt8 × List UInt8)
  | [] => none
  | c :: s => if c = quote then readChars (s.length + 1) s else none

/-! ## Writing -/

/-- Quotes are escaped, the rest is left as it is. -/
def write (text : List UInt8) : List UInt8 :=
  text.flatMap fun c => if c = quote then [backslash, quote] else [c]

@[simp] theorem write_nil : write [] = [] := rfl

@[simp] theorem write_append (s t : List UInt8) : write (s ++ t) = write s ++ write t :=
  List.flatMap_append

@[simp] theorem write_cons (c : UInt8) (s : List UInt8) :
    write (c :: s) = (if c = quote then [backslash, quote] else [c]) ++ write s := rfl

theorem write_plain {s : List UInt8} (h : ∀ c ∈ s, Plain c) : write s = s := by
  induction s with
  | nil => rfl
  | cons c s ih =>
      have hc : c ≠ quote := (h c (by simp)).2.1
      rw [write_cons, if_neg hc, ih fun d hd => h d (by simp [hd])]
      rfl

theorem readElem_quote (s : List UInt8) : readElem (backslash :: quote :: s) = some ([quote], s) :=
  rfl

theorem readElem_plain {c : UInt8} (h : Plain c) (s : List UInt8) :
    readElem (c :: s) = some ([c], s) := by
  rw [readElem, if_neg h.2.2.1, if_pos h]

theorem readChars_write {s : List UInt8} (h : ∀ c ∈ s, c = quote ∨ Plain c)
    (rest : List UInt8) {n : Nat} (hn : (write s).length < n) :
    readChars n (write s ++ quote :: rest) = some (s, rest) := by
  induction s generalizing n with
  | nil =>
      obtain ⟨n, rfl⟩ : ∃ m, n = m + 1 := ⟨n - 1, by omega⟩
      rfl
  | cons c s ih =>
      obtain ⟨n, rfl⟩ : ∃ m, n = m + 1 := ⟨n - 1, by omega⟩
      have hs : ∀ d ∈ s, d = quote ∨ Plain d := fun d hd => h d (by simp [hd])
      rcases eq_or_ne c quote with rfl | hc
      · rw [write_cons, if_pos rfl] at hn ⊢
        have hn : (write s).length < n := by
          simp only [List.length_append, List.length_cons, List.length_nil] at hn
          omega
        simp only [List.cons_append, List.nil_append]
        rw [readChars, if_neg (by decide), readElem_quote, Option.bind_some, ih hs hn]
        rfl
      · have hplain : Plain c := (h c (by simp)).resolve_left hc
        rw [write_cons, if_neg hc] at hn ⊢
        have hn : (write s).length < n := by
          simp only [List.length_append, List.length_cons, List.length_nil] at hn
          omega
        simp only [List.cons_append, List.nil_append]
        rw [readChars, if_neg hc, readElem_plain hplain, Option.bind_some, ih hs hn]
        rfl

/-- Plain characters and quotes are read as they were written. -/
theorem readLiteral_write {s : List UInt8} (h : ∀ c ∈ s, c = quote ∨ Plain c)
    (rest : List UInt8) :
    readLiteral (quote :: write s ++ quote :: rest) = some (s, rest) := by
  rw [List.cons_append, readLiteral, if_pos rfl]
  refine readChars_write h rest ?_
  rw [List.length_append]
  omega

end WatStrings
