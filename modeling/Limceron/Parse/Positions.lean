/-
# `Limceron.Parse.Positions` — where the tokens of a text stand

`lexer_next_raw` notes the line, the column and the offset of a token and how long
it is.  The lexer counts while it goes on, in `advance` alone, and the numbers
have 32 bits.  What stands between two tokens is blanks and comments (`Gap`).

| what is left open | its token |
| :-- | :-- |
| a block comment | there is none, and no report |
| `"…` before a newline, `${…`, a 33rd `${` | an error of length 0 |
| a raw string, a character | one byte longer than its text |

A string that the end of the text leaves open is a token like others, and
reported.  Everything else is where the lexer says it is (`positions_iff`).
-/
import Limceron.Parse.Strings
import Mathlib.Logic.Function.Iterate

namespace Limceron.Parse

open Braces

/-! ## The source -/

/-- `SourceLoc`. -/
structure SourceLoc where
  line : UInt32
  column : UInt32
  offset : UInt32

/-- The text, and how far the lexer is. -/
structure Lexer where
  source : List Char
  pos : ℕ
  line : UInt32
  column : UInt32

/-- A token with its place. -/
structure Located where
  token : Token
  loc : SourceLoc
  len : UInt32

/-- `lexer_new`. -/
def lexerNew (source : List Char) : Lexer := ⟨source, 0, 1, 1⟩

namespace Lexer

def rest (l : Lexer) : List Char := l.source.drop l.pos

/-- `advance`. -/
def advance (l : Lexer) : Lexer :=
  match l.rest with
  | [] => l
  | c :: _ =>
      if c = '\n' then { l with pos := l.pos + 1, line := l.line + 1, column := 1 }
      else { l with pos := l.pos + 1, column := l.column + 1 }

/-- As many bytes as it takes to leave this. -/
def skipTo (l : Lexer) (rest : List Char) : Lexer := advance^[l.rest.length - rest.length] l

end Lexer

/-- `tok.len`, of the token at the beginning of the text. -/
def tokenLen : List Char → ℕ
  | [] => 0
  | '"' :: cs =>
      let (tok, rest) := lexString [] false (.lit []) cs
      if tok.kind = .error then 0 else ('"' :: cs).length - rest.length
  | '\x60' :: cs => (scan (· != '\x60') cs).1.length + 2
  | '\'' :: cs => (scanChar cs).1.length + 2
  | cs => cs.length - (lexRaw cs).2.length

/-- `lexer_next_raw`, with the blanks and comments before the token. -/
def Lexer.nextRaw (l : Lexer) : Located × Lexer :=
  let l := l.skipTo (skipBlank .code l.rest)
  let (token, rest) := lexRaw l.rest
  ({ token
     loc := ⟨l.line, l.column, UInt32.ofNat l.pos⟩
     len := UInt32.ofNat (tokenLen l.rest) }, l.skipTo rest)

/-- The lexer after so many calls. -/
def lexerAt (source : List Char) : ℕ → Lexer
  | 0 => lexerNew source
  | k + 1 => (lexerAt source k).nextRaw.2

/-! ## Blanks and comments -/

/-- From inside a comment up to its end. -/
inductive Closed : List Char → Prop where
  | close : Closed ['*', '/']
  | nest {a b : List Char} : Closed a → Closed b → Closed ('/' :: '*' :: (a ++ b))
  | plain {c : Char} {t : List Char} : ¬ ['/', '*'] <+: c :: t → ¬ ['*', '/'] <+: c :: t →
      Closed t → Closed (c :: t)

/-- From inside a comment up to the end of the text. -/
inductive Unclosed : List Char → Prop where
  | nil : Unclosed []
  | inner {a : List Char} : Unclosed a → Unclosed ('/' :: '*' :: a)
  | nest {a b : List Char} : Closed a → Unclosed b → Unclosed ('/' :: '*' :: (a ++ b))
  | plain {c : Char} {t : List Char} : ¬ ['/', '*'] <+: c :: t → ¬ ['*', '/'] <+: c :: t →
      Unclosed t → Unclosed (c :: t)

/-- Only blanks and comments stand before `rest`. -/
inductive Gap : List Char → List Char → Prop where
  | nil (rest : List Char) : Gap [] rest
  | blank {c : Char} {t rest : List Char} : c ∈ [' ', '\t', '\r'] → Gap t rest → Gap (c :: t) rest
  | line {t rest : List Char} : '\n' ∉ t → (∀ c ∈ rest.head?, c = '\n') →
      Gap ('/' :: '/' :: t) rest
  | block {a t rest : List Char} : Closed a → Gap t rest → Gap ('/' :: '*' :: (a ++ t)) rest
  | toEnd {a : List Char} : Unclosed a → Gap ('/' :: '*' :: a) []

/-- The blanks and comments at the beginning of the text do not end. -/
inductive LeftOpen : List Char → Prop where
  | here {a : List Char} : Unclosed a → LeftOpen ('/' :: '*' :: a)
  | blank {c : Char} {t : List Char} : c ∈ [' ', '\t', '\r'] → LeftOpen t → LeftOpen (c :: t)
  | block {a t : List Char} : Closed a → LeftOpen t → LeftOpen ('/' :: '*' :: (a ++ t))

/-! ## Literals -/

/-- A string that goes on to its last quote or to the end of the text, with so many expressions. -/
inductive Readable : List Char → ℕ → Prop where
  | close (rest : List Char) : Readable ('"' :: rest) 0
  | toEnd : Readable [] 0
  | backslash : Readable ['\\'] 0
  | escape (esc : Char) {cs : List Char} {n : ℕ} : Readable cs n → Readable ('\\' :: esc :: cs) n
  | site {body cs : List Char} {n : ℕ} : Balanced body → Readable cs n →
      Readable ('$' :: '{' :: (body ++ '}' :: cs)) (n + 1)
  | plain {c : Char} {cs : List Char} {n : ℕ} : c ∉ ['"', '\\', '\n'] →
      ¬ (c = '$' ∧ cs.head? = some '{') → Readable cs n → Readable (c :: cs) n

/-- A character, or a backslash and a character, and the quote. -/
inductive CharText : List Char → Prop where
  | plain {c : Char} {rest : List Char} : c ≠ '\\' → CharText (c :: '\'' :: rest)
  | escape {c : Char} {rest : List Char} : CharText ('\\' :: c :: '\'' :: rest)

/-- The text begins with a literal that does not end. -/
def LiteralOpen : List Char → Prop
  | '"' :: cs => ¬ ∃ lit rest, Spells cs lit rest
  | '\x60' :: cs => '\x60' ∉ cs
  | '\'' :: cs => ¬ CharText cs
  | _ => False

/-- The text begins with a literal whose token is of another length. -/
def LiteralBroken : List Char → Prop
  | '"' :: cs => ¬ ∃ n ≤ 32, Readable cs n
  | '\x60' :: cs => '\x60' ∉ cs
  | '\'' :: cs => ¬ CharText cs
  | _ => False

/-! ## What is promised -/

/-- The number of newlines. -/
def newlines (t : List Char) : ℕ := t.count '\n'

/-- The number of bytes since the last newline. -/
def sinceNewline (t : List Char) : ℕ := (t.reverse.takeWhile (· ≠ '\n')).length

/-- One call. The place and the text of its token are right: from where the last one ended, only
blanks and comments stand before it, and it has exactly the bytes that are taken for it. -/
structure Exact (l : Lexer) : Prop where
  progress : l.pos < l.source.length → l.pos < l.nextRaw.2.pos
  apart : l.pos ≤ l.nextRaw.1.loc.offset.toNat
  between : Gap (l.rest.take (l.nextRaw.1.loc.offset.toNat - l.pos))
    (l.source.drop l.nextRaw.1.loc.offset.toNat)
  text : l.nextRaw.1.loc.offset.toNat + l.nextRaw.1.len.toNat = l.nextRaw.2.pos
  line : l.nextRaw.1.loc.line.toNat =
    1 + newlines (l.source.take l.nextRaw.1.loc.offset.toNat)
  column : l.nextRaw.1.loc.column.toNat =
    1 + sinceNewline (l.source.take l.nextRaw.1.loc.offset.toNat)
  reported : LeftOpen l.rest ∨ LiteralOpen (l.source.drop l.nextRaw.1.loc.offset.toNat) →
    l.nextRaw.1.token.diags ≠ []

/-- All calls are exact, and consecutive tokens do not overlap. -/
structure Placed (source : List Char) : Prop where
  exact : ∀ k, Exact (lexerAt source k)
  disjoint : ∀ k, (lexerAt source k).nextRaw.1.loc.offset.toNat +
      (lexerAt source k).nextRaw.1.len.toNat ≤
    (lexerAt source (k + 1)).nextRaw.1.loc.offset.toNat

/-- The numbers of the end of the text have 32 bits. -/
structure Fits (source : List Char) : Prop where
  offset : source.length < 2 ^ 32
  line : 1 + newlines source < 2 ^ 32
  column : 1 + sinceNewline source < 2 ^ 32

/-- What is left begins with something that is left open. -/
def Faulty (cs : List Char) : Prop :=
  LeftOpen cs ∨ ∃ t rest, cs = t ++ rest ∧ Gap t rest ∧ LiteralBroken rest

/-! ## The blanks and comments are skipped -/

theorem skipBlank_line_start (cs : List Char) :
    skipBlank .code ('/' :: '/' :: cs) = skipBlank .line cs := rfl

theorem skipBlank_block_start (cs : List Char) :
    skipBlank .code ('/' :: '*' :: cs) = skipBlank (.block 1) cs := rfl

theorem skipBlank_block_open (d : ℕ) (cs : List Char) :
    skipBlank (.block d) ('/' :: '*' :: cs) = skipBlank (.block (d + 1)) cs := rfl

theorem skipBlank_block_close (d : ℕ) (cs : List Char) :
    skipBlank (.block d) ('*' :: '/' :: cs) =
      skipBlank (if d ≤ 1 then .code else .block (d - 1)) cs := rfl

theorem skipBlank_newline (cs : List Char) : skipBlank .line ('\n' :: cs) = '\n' :: cs := rfl

theorem Closed.ne_nil {a : List Char} (h : Closed a) : a ≠ [] := by
  cases h <;> exact List.cons_ne_nil _ _

/-- A character of a comment that begins none and ends none. -/
theorem skipBlank_plain {c : Char} {cs : List Char} {d : ℕ} (hopen : ¬ ['/', '*'] <+: c :: cs)
    (hclose : ¬ ['*', '/'] <+: c :: cs) :
    skipBlank (.block d) (c :: cs) = skipBlank (.block d) cs := by
  rw [skipBlank]
  · rintro tail rfl rfl
    exact hopen ⟨tail, rfl⟩
  · rintro tail rfl rfl
    exact hclose ⟨tail, rfl⟩

/-- Two characters are at the beginning of a text if they are at that of a longer one. -/
theorem not_prefix_append {x y : Char} {a : List Char} (ha : 2 ≤ a.length)
    (h : ¬ [x, y] <+: a) (b : List Char) : ¬ [x, y] <+: a ++ b :=
  fun hab => h (List.prefix_of_prefix_length_le hab (List.prefix_append a b) ha)

theorem skipBlank_closed {a : List Char} (h : Closed a) (d : ℕ) (cs : List Char) :
    skipBlank (.block (d + 1)) (a ++ cs) = skipBlank (if d = 0 then .code else .block d) cs := by
  induction h generalizing d cs with
  | close =>
      rw [List.cons_append, List.cons_append, List.nil_append, skipBlank_block_close]
      congr 1
      by_cases hd : d = 0
      · rw [if_pos hd, if_pos (by omega)]
      · rw [if_neg hd, if_neg (by omega), Nat.add_sub_cancel]
  | @nest a b _ _ iha ihb =>
      rw [List.cons_append, List.cons_append, List.append_assoc, skipBlank_block_open, iha,
        if_neg (Nat.succ_ne_zero d), ihb]
  | @plain c t hopen hclose ht ih =>
      have hlength : 2 ≤ (c :: t).length := by
        have hpos := List.length_pos_of_ne_nil ht.ne_nil
        rw [List.length_cons]
        omega
      have hopen' : ¬ ['/', '*'] <+: c :: (t ++ cs) := not_prefix_append hlength hopen cs
      have hclose' : ¬ ['*', '/'] <+: c :: (t ++ cs) := not_prefix_append hlength hclose cs
      rw [List.cons_append, skipBlank_plain hopen' hclose', ih]

theorem skipBlank_unclosed {a : List Char} (h : Unclosed a) (d : ℕ) :
    skipBlank (.block (d + 1)) a = [] := by
  induction h generalizing d with
  | nil => rfl
  | inner _ ih => rw [skipBlank_block_open, ih]
  | nest ha _ ih => rw [skipBlank_block_open, skipBlank_closed ha, if_neg (Nat.succ_ne_zero d), ih]
  | plain hopen hclose _ ih => rw [skipBlank_plain hopen hclose, ih]

theorem skipBlank_blank {c : Char} (hc : c ∈ [' ', '\t', '\r']) (cs : List Char) :
    skipBlank .code (c :: cs) = skipBlank .code cs := by
  simp only [List.mem_cons, List.not_mem_nil, or_false] at hc
  rcases hc with rfl | rfl | rfl
  · rfl
  · rfl
  · rfl

theorem skipBlank_leftOpen {cs : List Char} (h : LeftOpen cs) : skipBlank .code cs = [] := by
  induction h with
  | here ha => rw [skipBlank_block_start, skipBlank_unclosed ha]
  | blank hc _ ih => rw [skipBlank_blank hc, ih]
  | block ha _ ih => rw [skipBlank_block_start, skipBlank_closed ha, if_pos rfl, ih]

theorem skipBlank_line {t rest : List Char} (ht : '\n' ∉ t) (hrest : ∀ c ∈ rest.head?, c = '\n') :
    skipBlank .line (t ++ rest) = rest := by
  induction t with
  | nil =>
      cases rest with
      | nil => rfl
      | cons c rest =>
          obtain rfl : c = '\n' := hrest c rfl
          exact skipBlank_newline rest
  | cons c t ih =>
      rw [List.mem_cons, not_or] at ht
      rw [List.cons_append, skipBlank, ih ht.2]
      exact fun h => ht.1 h.symm

/-- A gap is skipped, if a token stands behind it. -/
theorem skipBlank_gap {t rest : List Char} (h : Gap t rest) (hrest : skipBlank .code rest = rest) :
    skipBlank .code (t ++ rest) = rest := by
  induction h with
  | nil rest => exact hrest
  | blank hc _ ih => rw [List.cons_append, skipBlank_blank hc, ih hrest]
  | line ht hhead =>
      rw [List.cons_append, List.cons_append, skipBlank_line_start, skipBlank_line ht hhead]
  | block ha _ ih =>
      rw [List.cons_append, List.cons_append, List.append_assoc, skipBlank_block_start,
        skipBlank_closed ha, if_pos rfl, ih hrest]
  | toEnd ha =>
      rw [List.append_nil, skipBlank_block_start, skipBlank_unclosed ha]

/-- What is skipped, from inside so many comments. -/
def Within : ℕ → List Char → List Char → Prop
  | 0, t, rest => Gap t rest
  | d + 1, t, rest => (∃ a b, t = a ++ b ∧ Closed a ∧ Within d b rest) ∨ (Unclosed t ∧ rest = [])

theorem Within.nest {d : ℕ} {t rest : List Char} (h : Within (d + 2) t rest) :
    Within (d + 1) ('/' :: '*' :: t) rest := by
  rcases h with ⟨a, b, rfl, ha, ⟨a', b', rfl, ha', hb'⟩ | ⟨hb, hrest⟩⟩ | ⟨ht, hrest⟩
  · exact .inl ⟨'/' :: '*' :: (a ++ a'), b', by simp, .nest ha ha', hb'⟩
  · exact .inr ⟨.nest ha hb, hrest⟩
  · exact .inr ⟨.inner ht, hrest⟩

theorem Within.plain {d : ℕ} {c : Char} {t rest : List Char} (hopen : ¬ ['/', '*'] <+: c :: t)
    (hclose : ¬ ['*', '/'] <+: c :: t) (h : Within (d + 1) t rest) : Within (d + 1) (c :: t) rest := by
  rcases h with ⟨a, b, rfl, ha, hb⟩ | ⟨ht, hrest⟩
  · have hshort : ∀ {p : List Char}, ¬ p <+: c :: (a ++ b) → ¬ p <+: c :: a :=
      fun hp ha => hp (ha.trans (List.prefix_append (c :: a) b))
    exact .inl ⟨c :: a, b, rfl, .plain (hshort hopen) (hshort hclose) ha, hb⟩
  · exact .inr ⟨.plain hopen hclose ht, hrest⟩

/-- What `skipBlank` skips. -/
def Skips (b : Blank) (cs rest : List Char) : Prop :=
  ∃ t, cs = t ++ rest ∧
    match b with
    | .code => Gap t rest
    | .line => '\n' ∉ t ∧ ∀ c ∈ rest.head?, c = '\n'
    | .block d => d = 0 ∨ Within d t rest

theorem skipBlank_skips (b : Blank) (cs : List Char) : Skips b cs (skipBlank b cs) := by
  fun_induction skipBlank b cs with
  | case1 cs ih =>
      obtain ⟨t, ht, hline, hhead⟩ := ih
      exact ⟨'/' :: '/' :: t, by rw [List.cons_append, List.cons_append, ← ht], .line hline hhead⟩
  | case2 cs ih =>
      obtain ⟨t, ht, h | h⟩ := ih
      · cases h
      · refine ⟨'/' :: '*' :: t, by rw [List.cons_append, List.cons_append, ← ht], ?_⟩
        rcases h with ⟨a, b, rfl, ha, hb⟩ | ⟨hopen, hrest⟩
        · exact .block ha hb
        · dsimp only
          rw [hrest]
          exact .toEnd hopen
  | case3 c cs _ _ hc ih =>
      obtain ⟨t, ht, hgap⟩ := ih
      refine ⟨c :: t, by rw [List.cons_append, ← ht], .blank ?_ hgap⟩
      simpa [or_assoc] using hc
  | case4 c cs => exact ⟨[], rfl, .nil _⟩
  | case5 cs => exact ⟨[], rfl, List.not_mem_nil, fun c hc => by simpa using hc.symm⟩
  | case6 c cs hc ih =>
      obtain ⟨t, ht, hline, hhead⟩ := ih
      refine ⟨c :: t, by rw [List.cons_append, ← ht], ?_, hhead⟩
      rw [List.mem_cons, not_or]
      exact ⟨fun h => hc h.symm, hline⟩
  | case7 d cs ih =>
      obtain ⟨t, ht, h⟩ := ih
      refine ⟨'/' :: '*' :: t, by rw [List.cons_append, List.cons_append, ← ht], ?_⟩
      cases d with
      | zero => exact .inl rfl
      | succ d => exact .inr (h.resolve_left (Nat.succ_ne_zero _)).nest
  | case8 d cs ih =>
      obtain ⟨t, ht, h⟩ := ih
      refine ⟨'*' :: '/' :: t, by rw [List.cons_append, List.cons_append, ← ht], ?_⟩
      rcases d with _ | _ | d
      · exact .inl rfl
      · exact .inr (.inl ⟨['*', '/'], t, rfl, .close, h⟩)
      · exact .inr (.inl ⟨['*', '/'], t, rfl, .close, h.resolve_left (Nat.succ_ne_zero _)⟩)
  | case9 d c cs hopen hclose ih =>
      obtain ⟨t, ht, h⟩ := ih
      refine ⟨c :: t, by rw [List.cons_append, ← ht], ?_⟩
      cases d with
      | zero => exact .inl rfl
      | succ d =>
          have hwithin := h.resolve_left (Nat.succ_ne_zero _)
          refine .inr (hwithin.plain ?_ ?_)
          · rintro ⟨tail, htail⟩
            obtain ⟨rfl, rfl⟩ := List.cons.inj htail
            exact hopen (tail ++ skipBlank (.block (d + 1)) cs) rfl ht
          · rintro ⟨tail, htail⟩
            obtain ⟨rfl, rfl⟩ := List.cons.inj htail
            exact hclose (tail ++ skipBlank (.block (d + 1)) cs) rfl ht
  | case10 b =>
      refine ⟨[], rfl, ?_⟩
      cases b with
      | code => exact .nil []
      | line => exact ⟨List.not_mem_nil, fun c hc => by cases hc⟩
      | block d =>
          cases d with
          | zero => exact .inl rfl
          | succ d => exact .inr (.inr ⟨.nil, rfl⟩)

/-! ## What is left is the end of what there was -/

/-! ## Strings -/

theorem stringToken_ne_error (parts : List (String × String)) (nested : Bool) (buf : List Char)
    (diags : List String) : (stringToken parts nested buf diags).kind ≠ .error := by
  unfold stringToken
  split
  · rintro ⟨⟩
  · rintro ⟨⟩

theorem lexString_error_diags (parts : List (String × String)) (nested : Bool) (mode : StringMode)
    (cs : List Char) (h : (lexString parts nested mode cs).1.kind = .error) :
    (lexString parts nested mode cs).1.diags ≠ [] := by
  fun_induction lexString parts nested mode cs
  all_goals first
    | exact absurd h (stringToken_ne_error _ _ _ _)
    | exact List.cons_ne_nil _ _
    | exact ‹_ → _› h

/-- A string of a good form is a token. -/
theorem token_of_readable {cs : List Char} {n : ℕ} (h : Readable cs n)
    {parts : List (String × String)} (hcount : parts.length + n ≤ 32) (nested : Bool)
    (buf : List Char) : (lexString parts nested (.lit buf) cs).1.kind ≠ .error := by
  induction h generalizing parts nested buf with
  | close rest =>
      rw [lexString_close]
      exact stringToken_ne_error _ _ _ _
  | toEnd =>
      rw [lexString]
      exact stringToken_ne_error _ _ _ _
  | backslash =>
      rw [lexString]
      exact stringToken_ne_error _ _ _ _
  | escape esc _ ih =>
      rw [lexString_escape]
      exact ih hcount nested _
  | @site body cs n hbody _ ih =>
      have hclosing : closing 0 false (body ++ '}' :: cs) = some (body, cs) :=
        closing_iff.2 ⟨hbody, rfl⟩
      rw [lexString_site, if_neg (by omega),
        (lexString_expr parts (cstr buf) 0 false _ nested []).1 _ _ hclosing]
      refine ih ?_ _ _
      rw [List.length_append, List.length_singleton]
      omega
  | plain hc hsite _ ih =>
      rw [lexString_plain parts nested buf hc hsite]
      exact ih hcount nested _

/-- A token has been read from a string of a good form. -/
theorem readable_of_token (cs : List Char) {parts : List (String × String)} {nested : Bool}
    {buf : List Char} (hcount : parts.length ≤ 32)
    (h : (lexString parts nested (.lit buf) cs).1.kind ≠ .error) :
    ∃ n, Readable cs n ∧ parts.length + n ≤ 32 := by
  match cs with
  | [] => exact ⟨0, .toEnd, hcount⟩
  | c :: cs =>
      by_cases hsite : c = '$' ∧ cs.head? = some '{'
      · obtain ⟨rfl, htail⟩ := hsite
        obtain ⟨cs, rfl⟩ := List.head?_eq_some_iff.1 htail
        rw [lexString_site] at h
        split_ifs at h with hfull
        · exact absurd rfl h
        obtain ⟨hsome, hnone⟩ := lexString_expr parts (cstr buf) 0 false cs nested []
        cases hclosing : closing 0 false cs with
        | none => exact absurd (hnone hclosing) h
        | some r =>
            obtain ⟨body, cs'⟩ := r
            rw [hsome _ _ hclosing] at h
            obtain ⟨hbody, rfl⟩ := closing_iff.1 hclosing
            obtain ⟨n, hn, hle⟩ := readable_of_token cs' (by simp; omega) h
            refine ⟨n + 1, .site hbody hn, ?_⟩
            rw [List.length_append, List.length_singleton] at hle
            omega
      · by_cases hc : c ∈ ['"', '\\', '\n']
        · simp only [List.mem_cons, List.not_mem_nil, or_false] at hc
          rcases hc with rfl | rfl | rfl
          · exact ⟨0, .close cs, hcount⟩
          · cases cs with
            | nil => exact ⟨0, .backslash, hcount⟩
            | cons esc cs =>
                rw [lexString_escape] at h
                obtain ⟨n, hn, hle⟩ := readable_of_token cs hcount h
                exact ⟨n, .escape esc hn, hle⟩
          · rw [lexString] at h
            exact absurd rfl h
        · rw [lexString_plain parts nested buf hc hsite] at h
          obtain ⟨n, hn, hle⟩ := readable_of_token cs hcount h
          exact ⟨n, .plain hc hsite hn, hle⟩
termination_by cs.length

theorem string_token_iff (cs : List Char) :
    (lexString [] false (.lit []) cs).1.kind ≠ .error ↔ ∃ n ≤ 32, Readable cs n := by
  constructor
  · intro h
    have hcount : ([] : List (String × String)).length ≤ 32 := Nat.zero_le 32
    obtain ⟨n, hn, hle⟩ := readable_of_token cs hcount h
    exact ⟨n, by simpa using hle, hn⟩
  · rintro ⟨n, hle, hn⟩
    exact token_of_readable hn (by simpa using hle) false []

/-! ## The length of a token -/

/-- The bytes that are taken. -/
def taken (cs : List Char) : ℕ := cs.length - (lexRaw cs).2.length

theorem taken_pos {cs : List Char} (h : cs ≠ []) : 0 < taken cs := by
  have hweight := lexRaw_weight h
  have hpos := (lexRaw cs).1.weight_pos
  rw [taken]
  omega

theorem scan_raw (cs : List Char) :
    (scan (· != '\x60') cs).1.length + (scan (· != '\x60') cs).2.length = cs.length := by
  rw [scan, ← List.length_append, List.takeWhile_append_dropWhile]

theorem scan_raw_nil (cs : List Char) : (scan (· != '\x60') cs).2 = [] ↔ '\x60' ∉ cs := by
  rw [scan, List.dropWhile_eq_nil_iff]
  constructor
  · intro h hmem
    have := h _ hmem
    simp at this
  · intro h c hc
    rw [bne_iff_ne]
    rintro rfl
    exact h hc

theorem scanChar_length (cs : List Char) :
    (scanChar cs).1.length + (scanChar cs).2.length = cs.length := by
  unfold scanChar
  split
  · simp only [List.length_cons, List.length_nil]
    omega
  · simp only [List.length_cons, List.length_nil]
    omega
  · rfl

theorem scanChar_iff (cs : List Char) : (∃ rest, (scanChar cs).2 = '\'' :: rest) ↔ CharText cs := by
  constructor
  · rintro ⟨rest, h⟩
    unfold scanChar at h
    split at h
    · next c rest' =>
        subst h
        exact .escape
    · next c rest' hne =>
        subst h
        refine .plain ?_
        rintro rfl
        exact hne _ _ rfl rfl
    · cases h
  · intro h
    cases h with
    | @plain c rest hc =>
        refine ⟨rest, ?_⟩
        rw [scanChar]
        exact fun _ _ h _ => hc h
    | @escape c rest => exact ⟨rest, rfl⟩

theorem tokenLen_quote (cs : List Char) : tokenLen ('"' :: cs) =
    if (lexString [] false (.lit []) cs).1.kind = .error then 0 else taken ('"' :: cs) := rfl

theorem tokenLen_raw (cs : List Char) : tokenLen ('\x60' :: cs) =
    if '\x60' ∈ cs then taken ('\x60' :: cs) else taken ('\x60' :: cs) + 1 := by
  have hlength := scan_raw cs
  have hnil := scan_raw_nil cs
  have hrest : (lexRaw ('\x60' :: cs)).2 = (scan (· != '\x60') cs).2.tail := by
    change (lexRawString cs).2 = _
    unfold lexRawString
    dsimp only
    split
    · next h => rw [h]; rfl
    · next h => rw [h]; rfl
  change (scan (· != '\x60') cs).1.length + 2 = _
  rw [taken, hrest, List.length_cons]
  split_ifs with hmem
  · have hne : (scan (· != '\x60') cs).2 ≠ [] := fun h => hnil.1 h hmem
    have hpos := List.length_pos_of_ne_nil hne
    rw [List.length_tail]
    omega
  · rw [hnil.2 hmem] at hlength ⊢
    rw [List.length_nil] at hlength
    rw [List.tail_nil, List.length_nil]
    omega

open Classical in
theorem tokenLen_char (cs : List Char) : tokenLen ('\'' :: cs) =
    if CharText cs then taken ('\'' :: cs) else taken ('\'' :: cs) + 1 := by
  have hlength := scanChar_length cs
  have hiff := scanChar_iff cs
  have hlen : tokenLen ('\'' :: cs) = (scanChar cs).1.length + 2 := rfl
  have hrest : (lexRaw ('\'' :: cs)).2 = (lexCharLit cs).2 := rfl
  rw [hlen, taken, hrest, List.length_cons]
  unfold lexCharLit
  generalize scanChar cs = body at hlength hiff ⊢
  obtain ⟨body, rest⟩ := body
  dsimp only at hlength hiff ⊢
  split_ifs with hchar
  · obtain ⟨tail, rfl⟩ := hiff.2 hchar
    rw [List.length_cons] at hlength
    change body.length + 2 = cs.length + 1 - tail.length
    omega
  · split
    · next tail => exact absurd (hiff.1 ⟨tail, rfl⟩) hchar
    · dsimp only
      omega

theorem tokenLen_other {cs : List Char} (hquote : ∀ tail, cs ≠ '"' :: tail)
    (hraw : ∀ tail, cs ≠ '\x60' :: tail) (hchar : ∀ tail, cs ≠ '\'' :: tail) :
    tokenLen cs = taken cs := by
  unfold tokenLen
  split
  · rfl
  · next tail => exact absurd rfl (hquote tail)
  · next tail => exact absurd rfl (hraw tail)
  · next tail => exact absurd rfl (hchar tail)
  · rfl

theorem tokenLen_sound (cs : List Char) (h : ¬ LiteralBroken cs) : tokenLen cs = taken cs := by
  unfold LiteralBroken at h
  split at h
  · next cs =>
      rw [not_not] at h
      rw [tokenLen_quote, if_neg ((string_token_iff cs).2 h)]
  · rw [not_not] at h
    rw [tokenLen_raw, if_pos h]
  · rw [not_not] at h
    rw [tokenLen_char, if_pos h]
  · next hquote hraw hchar => exact tokenLen_other hquote hraw hchar

theorem tokenLen_broken {cs : List Char} (h : LiteralBroken cs) :
    cs ≠ [] ∧ skipBlank .code cs = cs ∧ (tokenLen cs = 0 ∨ tokenLen cs = taken cs + 1) := by
  unfold LiteralBroken at h
  split at h
  · next cs =>
      refine ⟨List.cons_ne_nil _ _, rfl, .inl ?_⟩
      rw [tokenLen_quote, if_pos]
      by_contra hkind
      exact h ((string_token_iff cs).1 hkind)
  · refine ⟨List.cons_ne_nil _ _, rfl, .inr ?_⟩
    rw [tokenLen_raw, if_neg h]
  · refine ⟨List.cons_ne_nil _ _, rfl, .inr ?_⟩
    rw [tokenLen_char, if_neg h]
  · exact h.elim

/-- What is left open is reported. -/
theorem reported_of_open {cs : List Char} (h : LiteralOpen cs) : (lexRaw cs).1.diags ≠ [] := by
  unfold LiteralOpen at h
  split at h
  · next cs =>
      intro hdiags
      change (lexString [] false (.lit []) cs).1.diags = [] at hdiags
      have hkind : (lexString [] false (.lit []) cs).1.kind ≠ .error :=
        fun herror => lexString_error_diags _ _ _ _ herror hdiags
      have hcount : ([] : List (String × String)).length ≤ 32 := Nat.zero_le 32
      obtain ⟨lit, hlit, -⟩ := spells_of_accepted cs hcount rfl hkind hdiags
      exact h ⟨lit, _, hlit⟩
  · next cs =>
      have hnil := (scan_raw_nil cs).2 h
      change (lexRawString cs).1.diags ≠ []
      unfold lexRawString
      dsimp only
      rw [hnil]
      exact List.cons_ne_nil _ _
  · next cs =>
      have hiff := scanChar_iff cs
      change (lexCharLit cs).1.diags ≠ []
      unfold lexCharLit
      generalize scanChar cs = body at hiff ⊢
      obtain ⟨body, rest⟩ := body
      dsimp only at hiff ⊢
      split
      · next tail => exact absurd (hiff.1 ⟨tail, rfl⟩) h
      · exact List.cons_ne_nil _ _
  · exact h.elim

/-! ## The lexer counts -/

theorem newlines_snoc (t : List Char) (c : Char) :
    newlines (t ++ [c]) = if c = '\n' then newlines t + 1 else newlines t := by
  rw [newlines, List.count_append, newlines]
  by_cases hc : c = '\n'
  · rw [if_pos hc, hc, List.count_singleton_self]
  · have hnone : List.count '\n' [c] = 0 := List.count_eq_zero.2 (by simpa using Ne.symm hc)
    rw [if_neg hc, hnone, Nat.add_zero]

theorem sinceNewline_snoc (t : List Char) (c : Char) :
    sinceNewline (t ++ [c]) = if c = '\n' then 0 else sinceNewline t + 1 := by
  rw [sinceNewline, List.reverse_append, List.reverse_singleton, List.singleton_append,
    List.takeWhile_cons, sinceNewline]
  by_cases hc : c = '\n'
  · simp [hc]
  · simp [hc]

theorem newlines_take_le (t : List Char) (n : ℕ) : newlines (t.take n) ≤ newlines t :=
  (List.take_sublist n t).count_le '\n'

theorem sinceNewline_le (t : List Char) : sinceNewline t ≤ t.length := by
  rw [sinceNewline, ← @List.length_reverse _ t]
  exact (List.takeWhile_prefix _).length_le

/-- The lexer is in its text, and has counted what is behind it. -/
structure Positioned (l : Lexer) : Prop where
  inside : l.pos ≤ l.source.length
  line : l.line = UInt32.ofNat (1 + newlines (l.source.take l.pos))
  column : l.column = UInt32.ofNat (1 + sinceNewline (l.source.take l.pos))

theorem positioned_new (source : List Char) : Positioned (lexerNew source) :=
  ⟨Nat.zero_le _, rfl, rfl⟩

theorem advance_eq {l : Lexer} (h : l.pos < l.source.length) :
    l.advance =
      if l.source[l.pos] = '\n' then { l with pos := l.pos + 1, line := l.line + 1, column := 1 }
      else { l with pos := l.pos + 1, column := l.column + 1 } := by
  rw [Lexer.advance, Lexer.rest, List.drop_eq_getElem_cons h]

/-- `l'` is where `n` bytes have been taken. -/
structure Taken (n : ℕ) (l l' : Lexer) : Prop where
  positioned : Positioned l'
  source : l'.source = l.source
  pos : l'.pos = l.pos + n

theorem taken_advance {l : Lexer} (h : Positioned l) (hpos : l.pos < l.source.length) :
    Taken 1 l l.advance := by
  have htake : l.source.take (l.pos + 1) = l.source.take l.pos ++ [l.source[l.pos]] :=
    List.take_succ_eq_append_getElem hpos
  rw [advance_eq hpos]
  split_ifs with hnewline
  · refine ⟨⟨hpos, ?_, ?_⟩, rfl, rfl⟩
    · dsimp only
      rw [htake, newlines_snoc, if_pos hnewline, ← Nat.add_assoc, UInt32.ofNat_add, ← h.line]
      rfl
    · dsimp only
      rw [htake, sinceNewline_snoc, if_pos hnewline]
      rfl
  · refine ⟨⟨hpos, ?_, ?_⟩, rfl, rfl⟩
    · dsimp only
      rw [htake, newlines_snoc, if_neg hnewline, h.line]
    · dsimp only
      rw [htake, sinceNewline_snoc, if_neg hnewline, ← Nat.add_assoc, UInt32.ofNat_add, ← h.column]
      rfl

theorem taken_iterate (n : ℕ) {l : Lexer} (h : Positioned l) (hn : l.pos + n ≤ l.source.length) :
    Taken n l (Lexer.advance^[n] l) := by
  induction n generalizing l with
  | zero => exact ⟨h, rfl, rfl⟩
  | succ n ih =>
      have hone := taken_advance h (by omega)
      have hrest := ih hone.positioned (by rw [hone.pos, hone.source]; omega)
      rw [Function.iterate_succ_apply]
      exact ⟨hrest.positioned, hrest.source.trans hone.source,
        by rw [hrest.pos, hone.pos]; omega⟩

theorem length_rest {l : Lexer} : l.rest.length = l.source.length - l.pos :=
  List.length_drop

theorem taken_skipTo {l : Lexer} (h : Positioned l) (rest : List Char) :
    Taken (l.rest.length - rest.length) l (l.skipTo rest) := by
  have hinside := h.inside
  have hlength := length_rest (l := l)
  exact taken_iterate _ h (by omega)

theorem rest_skipTo {l : Lexer} (h : Positioned l) {rest : List Char} (hrest : rest <:+ l.rest) :
    (l.skipTo rest).rest = rest := by
  have htaken := taken_skipTo h rest
  rw [Lexer.rest, htaken.source, htaken.pos, ← List.drop_drop]
  exact (List.suffix_iff_eq_drop.1 hrest).symm

/-! ## A call -/

theorem skipBlank_suffix (cs : List Char) :
    ∃ t, cs = t ++ skipBlank .code cs ∧ Gap t (skipBlank .code cs) :=
  skipBlank_skips .code cs

namespace Lexer

/-- The lexer before the token. -/
def start (l : Lexer) : Lexer := l.skipTo (skipBlank .code l.rest)

variable {l : Lexer}

theorem nextRaw_loc (l : Lexer) :
    l.nextRaw.1.loc = ⟨l.start.line, l.start.column, UInt32.ofNat l.start.pos⟩ := rfl

theorem nextRaw_len (l : Lexer) : l.nextRaw.1.len = UInt32.ofNat (tokenLen l.start.rest) := rfl

theorem nextRaw_token (l : Lexer) : l.nextRaw.1.token = (lexRaw l.start.rest).1 := rfl

theorem nextRaw_lexer (l : Lexer) : l.nextRaw.2 = l.start.skipTo (lexRaw l.start.rest).2 := rfl

theorem rest_start (h : Positioned l) : l.start.rest = skipBlank .code l.rest := by
  obtain ⟨t, ht, -⟩ := skipBlank_suffix l.rest
  exact rest_skipTo h ⟨t, ht.symm⟩

/-- What is skipped. -/
theorem gap_start (h : Positioned l) :
    ∃ t, l.rest = t ++ l.start.rest ∧ Gap t l.start.rest ∧ Taken t.length l l.start := by
  obtain ⟨t, ht, hgap⟩ := skipBlank_suffix l.rest
  have htaken := taken_skipTo h (skipBlank .code l.rest)
  have hlength : l.rest.length - (skipBlank .code l.rest).length = t.length := by
    have := congrArg List.length ht
    rw [List.length_append] at this
    omega
  rw [hlength] at htaken
  rw [rest_start h]
  exact ⟨t, ht, hgap, htaken⟩

theorem taken_token (h : Positioned l) : Taken (taken l.start.rest) l.start l.nextRaw.2 := by
  obtain ⟨t, -, -, hstart⟩ := gap_start h
  exact taken_skipTo hstart.positioned _

/-- A call before the end takes a byte. -/
theorem progress (h : Positioned l) (hpos : l.pos < l.source.length) : l.pos < l.nextRaw.2.pos := by
  obtain ⟨t, ht, -, hstart⟩ := gap_start h
  have hend := (taken_token h).pos
  have hpast := hstart.pos
  cases t with
  | cons c t =>
      rw [List.length_cons] at hpast
      omega
  | nil =>
      have hne : l.start.rest ≠ [] := by
        intro hnil
        rw [hnil] at ht
        have hlength := congrArg List.length ht
        rw [length_rest] at hlength
        simp only [List.append_nil, List.length_nil] at hlength
        omega
      have htaken := taken_pos hne
      omega

end Lexer

theorem lexerAt_taken (source : List Char) (k : ℕ) :
    Positioned (lexerAt source k) ∧ (lexerAt source k).source = source ∧
      min k source.length ≤ (lexerAt source k).pos := by
  induction k with
  | zero => exact ⟨positioned_new source, rfl, Nat.min_le_left 0 _⟩
  | succ k ih =>
      obtain ⟨hpositioned, hsource, hpos⟩ := ih
      obtain ⟨t, -, -, hstart⟩ := Lexer.gap_start hpositioned
      have htoken := Lexer.taken_token hpositioned
      have hprogress := Lexer.progress hpositioned
      refine ⟨htoken.positioned, htoken.source.trans (hstart.source.trans hsource), ?_⟩
      have hstartPos := hstart.pos
      have htokenPos := htoken.pos
      rw [hsource] at hprogress
      change _ ≤ (lexerAt source k).nextRaw.2.pos
      omega

/-! ## When the places are right -/

theorem toNat_ofNat {n : ℕ} (h : n < 2 ^ 32) : (UInt32.ofNat n).toNat = n :=
  UInt32.toNat_ofNat_of_lt h

theorem lt_of_toNat_ofNat {n : ℕ} (h : (UInt32.ofNat n).toNat = n) : n < 2 ^ 32 := by
  rw [← h]
  exact (UInt32.ofNat n).toNat_lt

theorem Fits.pos {source : List Char} (h : Fits source) {n : ℕ} (hn : n ≤ source.length) :
    n < 2 ^ 32 := Nat.lt_of_le_of_lt hn h.offset

theorem Fits.line_take {source : List Char} (h : Fits source) (n : ℕ) :
    1 + newlines (source.take n) < 2 ^ 32 :=
  Nat.lt_of_le_of_lt (Nat.add_le_add_left (newlines_take_le source n) 1) h.line

/-- Only at the end of the text can the column be as large as the text is long. -/
theorem Fits.column_take {source : List Char} (h : Fits source) {n : ℕ} (hn : n ≤ source.length) :
    1 + sinceNewline (source.take n) < 2 ^ 32 := by
  rcases Nat.eq_or_lt_of_le hn with rfl | hlt
  · rw [List.take_length]
    exact h.column
  · have hle := sinceNewline_le (source.take n)
    have hoffset := h.offset
    rw [List.length_take] at hle
    omega

section

variable {l : Lexer}

theorem Positioned.inside_start (h : Positioned l) : l.start.pos ≤ l.source.length := by
  obtain ⟨t, -, -, hstart⟩ := Lexer.gap_start h
  have hinside := hstart.positioned.inside
  rwa [hstart.source] at hinside

theorem offset_eq (h : Positioned l) (hfits : Fits l.source) :
    l.nextRaw.1.loc.offset.toNat = l.start.pos :=
  toNat_ofNat (hfits.pos h.inside_start)

/-- The length that is noted is right, unless the literal is broken. -/
theorem text_iff (h : Positioned l) (hfits : Fits l.source) :
    l.nextRaw.1.loc.offset.toNat + l.nextRaw.1.len.toNat = l.nextRaw.2.pos ↔
      ¬ LiteralBroken l.start.rest := by
  obtain ⟨t, -, -, hstart⟩ := Lexer.gap_start h
  have htoken := Lexer.taken_token h
  have hinside := htoken.positioned.inside
  rw [htoken.source, hstart.source] at hinside
  have hend := hfits.pos hinside
  rw [offset_eq h hfits, Lexer.nextRaw_len, htoken.pos, Nat.add_left_cancel_iff]
  rw [htoken.pos] at hend
  constructor
  · intro hlen hbroken
    obtain ⟨hne, -, hzero | hsucc⟩ := tokenLen_broken hbroken
    · rw [hzero] at hlen
      exact absurd hlen (Nat.ne_of_lt (taken_pos hne))
    · rw [hsucc] at hlen
      by_cases hroom : taken l.start.rest + 1 < 2 ^ 32
      · rw [toNat_ofNat hroom] at hlen
        omega
      · have hlast : taken l.start.rest + 1 = 2 ^ 32 := by omega
        rw [hlast] at hlen
        have hpos := taken_pos hne
        have hzero : (UInt32.ofNat (2 ^ 32)).toNat = 0 := rfl
        omega
  · intro hsound
    rw [tokenLen_sound _ hsound]
    exact toNat_ofNat (by omega)

theorem exact_of_fits (h : Positioned l) (hfits : Fits l.source) (hopen : ¬ LeftOpen l.rest)
    (hbroken : ¬ LiteralBroken l.start.rest) : Exact l := by
  obtain ⟨t, ht, hgap, hstart⟩ := Lexer.gap_start h
  have hoffset := offset_eq h hfits
  have hdrop : l.source.drop l.start.pos = l.start.rest := by rw [Lexer.rest, hstart.source]
  refine ⟨Lexer.progress h, ?_, ?_, (text_iff h hfits).2 hbroken, ?_, ?_, ?_⟩
  · rw [hoffset, hstart.pos]
    exact Nat.le_add_right _ _
  · have htake : l.rest.take (l.start.pos - l.pos) = t := by
      rw [hstart.pos, Nat.add_sub_cancel_left, ht, List.take_left]
    rw [hoffset, htake, hdrop]
    exact hgap
  · rw [hoffset, Lexer.nextRaw_loc, hstart.positioned.line, hstart.source]
    exact toNat_ofNat (hfits.line_take _)
  · rw [hoffset, Lexer.nextRaw_loc, hstart.positioned.column, hstart.source]
    exact toNat_ofNat (hfits.column_take h.inside_start)
  · rw [hoffset, hdrop]
    rintro (hleft | hliteral)
    · exact absurd hleft hopen
    · exact reported_of_open hliteral

end

/-- At the end of the text its length and the lines are noted. -/
theorem fits_of_exact {source : List Char} (h : ∀ k, Exact (lexerAt source k)) : Fits source := by
  obtain ⟨hpositioned, hsource, hpos⟩ := lexerAt_taken source source.length
  have hexact := h source.length
  generalize lexerAt source source.length = l at hpositioned hsource hpos hexact
  subst hsource
  rw [Nat.min_self] at hpos
  obtain ⟨t, -, -, hstart⟩ := Lexer.gap_start hpositioned
  have hinside := hpositioned.inside_start
  have hstartPos := hstart.pos
  have hend : l.start.pos = l.source.length := by omega
  have hoffset : l.nextRaw.1.loc.offset.toNat = l.source.length := by
    have hapart := hexact.apart
    have hle : l.nextRaw.1.loc.offset.toNat ≤ l.start.pos := by
      rw [Lexer.nextRaw_loc, UInt32.toNat_ofNat']
      exact Nat.mod_le _ _
    omega
  have hline := hexact.line
  have hcolumn := hexact.column
  rw [hoffset, Lexer.nextRaw_loc, List.take_length] at hline hcolumn
  rw [hstart.positioned.line, hstart.source, hend, List.take_length] at hline
  rw [hstart.positioned.column, hstart.source, hend, List.take_length] at hcolumn
  refine ⟨?_, lt_of_toNat_ofNat hline, lt_of_toNat_ofNat hcolumn⟩
  rw [← hoffset]
  exact l.nextRaw.1.loc.offset.toNat_lt

/-- The places are right, in a text that is not too long, as long as no block comment, no string,
no raw string and no character is left open; a string may end with the text. -/
theorem positions_iff (source : List Char) :
    Placed source ↔ Fits source ∧ ∀ k, ¬ Faulty (lexerAt source k).rest := by
  constructor
  · rintro ⟨hexact, -⟩
    have hfits := fits_of_exact hexact
    refine ⟨hfits, fun k hfaulty => ?_⟩
    obtain ⟨hpositioned, hsource, -⟩ := lexerAt_taken source k
    have hcall := hexact k
    generalize lexerAt source k = l at hpositioned hsource hfaulty hcall
    subst hsource
    rcases hfaulty with hopen | ⟨t, rest, ht, hgap, hbroken⟩
    · have hreported := hcall.reported (.inl hopen)
      rw [Lexer.nextRaw_token, Lexer.rest_start hpositioned, skipBlank_leftOpen hopen] at hreported
      exact hreported rfl
    · obtain ⟨-, hskip, -⟩ := tokenLen_broken hbroken
      have hstart : l.start.rest = rest := by
        rw [Lexer.rest_start hpositioned, ht, skipBlank_gap hgap hskip]
      rw [← hstart] at hbroken
      exact (text_iff hpositioned hfits).1 hcall.text hbroken
  · rintro ⟨hfits, hsound⟩
    have hexact : ∀ k, Exact (lexerAt source k) := by
      intro k
      obtain ⟨hpositioned, hsource, -⟩ := lexerAt_taken source k
      obtain ⟨t, ht, hgap, -⟩ := Lexer.gap_start hpositioned
      refine exact_of_fits hpositioned (by rwa [hsource]) (fun hopen => hsound k (.inl hopen)) ?_
      intro hbroken
      exact hsound k (.inr ⟨t, _, ht, hgap, hbroken⟩)
    refine ⟨hexact, fun k => ?_⟩
    rw [(hexact k).text]
    exact (hexact (k + 1)).apart

/-- Nothing is reported of a comment that is left open. -/
theorem open_comment_silent : ¬ Placed ['/', '*'] := by
  intro h
  exact (h.exact 0).reported (.inl (.here .nil)) rfl

end Limceron.Parse
