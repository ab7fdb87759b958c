/-
# `Limceron.Parse.Lexer` — from the text to tokens

`lexer_next_raw` and `lexer_next` on a list of bytes, each a `Char`.  The lexer
knows nothing of the parser, so all tokens of a text are one list; at its end the
lexer returns `TOK_EOF` again and again.

The string table has room for 65536 strings and the arena for 128 MB; here there
is always room.

| text | token |
| :-- | :-- |
| `// …`, `/* … */`, blanks | none |
| a newline after the end of a statement | `semicolon` |
| `"… ${e} …"` | one token, with the text of `e` |
| what is left open, or has no meaning | `error`, or a literal, and a report |
-/
import Limceron.Parse.Token

namespace Limceron.Parse

/-! ## Characters -/

def isAlpha (c : Char) : Bool :=
  ('a' ≤ c && c ≤ 'z') || ('A' ≤ c && c ≤ 'Z') || c == '_'

def isDigit (c : Char) : Bool := '0' ≤ c && c ≤ '9'

def isAlnum (c : Char) : Bool := isAlpha c || isDigit c

def isHex (c : Char) : Bool := isDigit c || ('a' ≤ c && c ≤ 'f') || ('A' ≤ c && c ≤ 'F')

/-- A string of C ends at the first NUL. -/
def cstr (cs : List Char) : String := String.ofList (cs.takeWhile (· != '\x00'))

/-! ## Blanks and comments -/

inductive Blank where
  | code
  | line
  | block (depth : Nat)

/-- `skip_whitespace_no_newline`. -/
def skipBlank : Blank → List Char → List Char
  | .code, '/' :: '/' :: cs => skipBlank .line cs
  | .code, '/' :: '*' :: cs => skipBlank (.block 1) cs
  | .code, c :: cs => if c == ' ' || c == '\t' || c == '\r' then skipBlank .code cs else c :: cs
  | .line, '\n' :: cs => '\n' :: cs
  | .line, _ :: cs => skipBlank .line cs
  | .block d, '/' :: '*' :: cs => skipBlank (.block (d + 1)) cs
  | .block d, '*' :: '/' :: cs => skipBlank (if d ≤ 1 then .code else .block (d - 1)) cs
  | .block d, _ :: cs => skipBlank (.block d) cs
  | _, [] => []

/-! ## Numbers -/

def digitValue (c : Char) : Nat :=
  if isDigit c then c.toNat - '0'.toNat
  else if 'a' ≤ c && c ≤ 'z' then c.toNat - 'a'.toNat + 10
  else if 'A' ≤ c && c ≤ 'Z' then c.toNat - 'A'.toNat + 10
  else 36

def digitsValue (base : Nat) (cs : List Char) : Nat :=
  (cs.takeWhile fun c => digitValue c < base).foldl (fun v c => v * base + digitValue c) 0

def clampInt64 (v : Int) : Int := max (-9223372036854775808) (min v 9223372036854775807)

/-- `strtoll`: blanks, a sign, digits; to base 16 also `0x`. -/
def strtoll (base : Nat) (cs : List Char) : Int :=
  let cs := cs.dropWhile fun c => c == ' ' || ('\t' ≤ c && c ≤ '\r')
  let magnitude (cs : List Char) : Nat :=
    match base, cs with
    | 16, '0' :: 'x' :: cs => digitsValue 16 cs
    | 16, '0' :: 'X' :: cs => digitsValue 16 cs
    | _, cs => digitsValue base cs
  match cs with
  | '-' :: cs => clampInt64 (-magnitude cs)
  | '+' :: cs => clampInt64 (magnitude cs)
  | cs => clampInt64 (magnitude cs)

/-- The longest beginning with `p`, and the rest. -/
def scan (p : Char → Bool) (cs : List Char) : List Char × List Char :=
  (cs.takeWhile p, cs.dropWhile p)

def isDigitOr (c : Char) : Bool := isDigit c || c == '_'

/-- The fraction: a dot and a digit must follow. -/
def scanFraction : List Char → List Char × List Char
  | '.' :: d :: cs =>
      if isDigit d then
        let (ds, rest) := scan isDigitOr (d :: cs)
        ('.' :: ds, rest)
      else ([], '.' :: d :: cs)
  | cs => ([], cs)

def scanExponent : List Char → List Char × List Char
  | c :: cs =>
      if c == 'e' || c == 'E' then
        match cs with
        | '+' :: cs => let (ds, rest) := scan isDigit cs; (c :: '+' :: ds, rest)
        | '-' :: cs => let (ds, rest) := scan isDigit cs; (c :: '-' :: ds, rest)
        | cs => let (ds, rest) := scan isDigit cs; (c :: ds, rest)
      else ([], c :: cs)
  | [] => ([], [])

/-- A decimal number; 127 characters of it count. -/
def lexDecimal (cs : List Char) : Token × List Char :=
  let (whole, cs) := scan isDigitOr cs
  let (fraction, cs) := scanFraction cs
  let (exponent, cs) := scanExponent cs
  let numbuf := ((whole ++ fraction ++ exponent).take 127).filter (· != '_')
  if fraction.isEmpty && exponent.isEmpty then
    ({ kind := .intLit, value := .int (strtoll 10 numbuf) }, cs)
  else ({ kind := .floatLit, value := .float (String.ofList numbuf) }, cs)

/-- `strtoll` reads the text itself, from the digits on. -/
def lexNumber : List Char → Token × List Char
  | '0' :: 'x' :: cs => lexRadix 16 isHex ('0' :: 'x' :: cs) cs
  | '0' :: 'X' :: cs => lexRadix 16 isHex ('0' :: 'X' :: cs) cs
  | '0' :: 'o' :: cs => lexRadix 8 (fun c => '0' ≤ c && c ≤ '7') cs cs
  | '0' :: 'O' :: cs => lexRadix 8 (fun c => '0' ≤ c && c ≤ '7') cs cs
  | '0' :: 'b' :: cs => lexRadix 2 (fun c => c == '0' || c == '1') cs cs
  | '0' :: 'B' :: cs => lexRadix 2 (fun c => c == '0' || c == '1') cs cs
  | cs => lexDecimal cs
where
  lexRadix (base : Nat) (isDigit : Char → Bool) (text cs : List Char) : Token × List Char :=
    ({ kind := .intLit, value := .int (strtoll base text) },
      cs.dropWhile fun c => isDigit c || c == '_')

/-! ## Strings -/

/-- `str_buf` has room for 8191 bytes. -/
def pushChar (room : Nat) (buf cs : List Char) : List Char :=
  if buf.length < room then buf ++ cs else buf

/-- What a backslash and `esc` put into the buffer. -/
def pushEscape (buf : List Char) (esc : Char) : List Char :=
  match esc with
  | 'n' => pushChar 8191 buf ['\n']
  | 't' => pushChar 8191 buf ['\t']
  | 'r' => pushChar 8191 buf ['\r']
  | '0' => pushChar 8191 buf ['\x00']
  | '\\' => pushChar 8191 buf ['\\']
  | '"' => pushChar 8191 buf ['"']
  | '{' => pushChar 8191 buf ['{']
  | '$' => pushChar 8191 buf ['$']
  | esc => pushChar 8190 buf ['\\', esc]

/-- Where the scanner of a string stands: in a literal, or in an expression, with
the literal before it and what there is of the expression. -/
inductive StringMode where
  | lit (buf : List Char)
  | expr (literal : String) (src : List Char) (depth : Nat) (inStr : Bool)

def errorToken (msg : String) : Token := { kind := .error, diags := [msg] }

/-- The token of a string that has ended, `diags` being what was reported. -/
def stringToken (parts : List (String × String)) (nested : Bool) (buf : List Char)
    (diags : List String) : Token :=
  if parts.isEmpty then { kind := .stringLit, value := .str (cstr buf), diags := diags }
  else
    { kind := .interpString
      value := .interp { parts := parts, last := cstr buf, nestedDetected := nested }
      diags := diags }

/-- A string, after its first quote. -/
def lexString (parts : List (String × String)) (nested : Bool) :
    StringMode → List Char → Token × List Char
  | .lit buf, [] => (stringToken parts nested buf ["unterminated string literal"], [])
  | .lit buf, ['\\'] => (stringToken parts nested buf ["unterminated string literal"], [])
  | .lit buf, '"' :: cs => (stringToken parts nested buf [], cs)
  | .lit buf, '\\' :: esc :: cs => lexString parts nested (.lit (pushEscape buf esc)) cs
  | .lit buf, '$' :: '{' :: cs =>
      if 32 ≤ parts.length then (errorToken "too many interpolation segments", '$' :: '{' :: cs)
      else lexString parts nested (.expr (cstr buf) [] 1 false) cs
  | .lit _, '\n' :: cs => (errorToken "unterminated string literal", '\n' :: cs)
  | .lit buf, c :: cs => lexString parts nested (.lit (pushChar 8191 buf [c])) cs
  | .expr _ _ _ _, [] => (errorToken "unterminated `$\x7b...\x7d` interpolation", [])
  | .expr _ _ _ _, '\n' :: cs =>
      (errorToken "unterminated `$\x7b...\x7d` interpolation", '\n' :: cs)
  | .expr l src depth false, '"' :: cs =>
      lexString parts nested (.expr l (src ++ ['"']) depth true) cs
  | .expr l src depth false, '$' :: '{' :: cs =>
      lexString parts true (.expr l (src ++ ['$', '{']) (depth + 1) false) cs
  | .expr l src depth false, '{' :: cs =>
      lexString parts nested (.expr l (src ++ ['{']) (depth + 1) false) cs
  | .expr l src depth false, '}' :: cs =>
      if depth ≤ 1 then lexString (parts ++ [(l, cstr src)]) nested (.lit []) cs
      else lexString parts nested (.expr l (src ++ ['}']) (depth - 1) false) cs
  | .expr l src depth true, '\\' :: c :: cs =>
      lexString parts nested (.expr l (src ++ ['\\', c]) depth true) cs
  | .expr l src depth true, '"' :: cs =>
      lexString parts nested (.expr l (src ++ ['"']) depth false) cs
  | .expr l src depth true, '$' :: '{' :: cs =>
      lexString parts true (.expr l (src ++ ['$', '{']) depth true) cs
  | .expr l src depth inStr, c :: cs =>
      lexString parts nested (.expr l (src ++ [c]) depth inStr) cs

/-- A raw string, after its first backquote. -/
def lexRawString (cs : List Char) : Token × List Char :=
  let (body, rest) := scan (· != '\x60') cs
  match rest with
  | [] => ({ kind := .stringLit, value := .str (cstr body), diags := ["unterminated raw string"] }, [])
  | _ :: rest => ({ kind := .stringLit, value := .str (cstr body) }, rest)

/-- One character, or one with a backslash before it. -/
def scanChar : List Char → List Char × List Char
  | '\\' :: c :: rest => (['\\', c], rest)
  | c :: rest => ([c], rest)
  | [] => ([], [])

/-- A character literal, after its first quote. -/
def lexCharLit (cs : List Char) : Token × List Char :=
  let (body, rest) := scanChar cs
  match rest with
  | '\'' :: rest => ({ kind := .charLit, value := .str (cstr body) }, rest)
  | rest =>
      ({ kind := .charLit, value := .str (cstr body), diags := ["unterminated character literal"] },
        rest)

/-! ## Operators -/

def hexDigit (n : Nat) : Char := "0123456789abcdef".toList.getD n '0'

def unexpectedCharacter (c : Char) : String :=
  "unexpected character: '" ++ c.toString ++ "' (0x" ++
    String.ofList [hexDigit (c.toNat / 16 % 16), hexDigit (c.toNat % 16)] ++ ")"

/-- The longest operator that begins with `c`. -/
def lexOp (c : Char) (cs : List Char) : Token × List Char :=
  match c, cs with
  | '(', cs => ({ kind := .lparen }, cs)
  | ')', cs => ({ kind := .rparen }, cs)
  | '[', cs => ({ kind := .lbracket }, cs)
  | ']', cs => ({ kind := .rbracket }, cs)
  | '{', cs => ({ kind := .lbrace }, cs)
  | '}', cs => ({ kind := .rbrace }, cs)
  | ',', cs => ({ kind := .comma }, cs)
  | ';', cs => ({ kind := .semicolon }, cs)
  | '~', cs => ({ kind := .tilde }, cs)
  | '#', cs => ({ kind := .hash }, cs)
  | '@', cs => ({ kind := .atSign }, cs)
  | ':', ':' :: cs => ({ kind := .colonColon }, cs)
  | ':', cs => ({ kind := .colon }, cs)
  | '.', '.' :: '=' :: cs => ({ kind := .dotDotEq }, cs)
  | '.', '.' :: cs => ({ kind := .dotDot }, cs)
  | '.', cs => ({ kind := .dot }, cs)
  | '+', '=' :: cs => ({ kind := .plusEq }, cs)
  | '+', cs => ({ kind := .plus }, cs)
  | '-', '>' :: cs => ({ kind := .arrow }, cs)
  | '-', '=' :: cs => ({ kind := .minusEq }, cs)
  | '-', cs => ({ kind := .minus }, cs)
  | '*', '*' :: cs => ({ kind := .power }, cs)
  | '*', '=' :: cs => ({ kind := .starEq }, cs)
  | '*', cs => ({ kind := .star }, cs)
  | '/', '=' :: cs => ({ kind := .slashEq }, cs)
  | '/', cs => ({ kind := .slash }, cs)
  | '%', '=' :: cs => ({ kind := .percentEq }, cs)
  | '%', cs => ({ kind := .percent }, cs)
  | '&', '&' :: cs => ({ kind := .andAnd }, cs)
  | '&', '=' :: cs => ({ kind := .ampEq }, cs)
  | '&', cs => ({ kind := .amp }, cs)
  | '|', '|' :: cs => ({ kind := .pipePipe }, cs)
  | '|', '>' :: cs => ({ kind := .pipeGt }, cs)
  | '|', '=' :: cs => ({ kind := .pipeEq }, cs)
  | '|', cs => ({ kind := .pipe }, cs)
  | '^', '=' :: cs => ({ kind := .caretEq }, cs)
  | '^', cs => ({ kind := .caret }, cs)
  | '=', '=' :: cs => ({ kind := .eqEq }, cs)
  | '=', '>' :: cs => ({ kind := .fatArrow }, cs)
  | '=', cs => ({ kind := .eq }, cs)
  | '!', '=' :: cs => ({ kind := .notEq }, cs)
  | '!', cs => ({ kind := .bang }, cs)
  | '<', '=' :: cs => ({ kind := .ltEq }, cs)
  | '<', '<' :: '=' :: cs => ({ kind := .shlEq }, cs)
  | '<', '<' :: cs => ({ kind := .shl }, cs)
  | '<', cs => ({ kind := .lt }, cs)
  | '>', '=' :: cs => ({ kind := .gtEq }, cs)
  | '>', '>' :: '=' :: cs => ({ kind := .shrEq }, cs)
  | '>', '>' :: cs => ({ kind := .shr }, cs)
  | '>', cs => ({ kind := .gt }, cs)
  | '?', '.' :: cs => ({ kind := .questionDot }, cs)
  | '?', cs => ({ kind := .question }, cs)
  | c, cs => (errorToken (unexpectedCharacter c), cs)

/-! ## Tokens -/

def lexWord (cs : List Char) : Token × List Char :=
  let (word, rest) := scan isAlnum cs
  ({ kind := keywordLookup (String.ofList word), value := .str (String.ofList word) }, rest)

/-- `lexer_next_raw`, after the blanks. -/
def lexRaw : List Char → Token × List Char
  | [] => (Token.eof, [])
  | '\n' :: cs => ({ kind := .newline }, cs)
  | '"' :: cs => lexString [] false (.lit []) cs
  | '\x60' :: cs => lexRawString cs
  | '\'' :: cs => lexCharLit cs
  | c :: cs =>
      if isAlpha c then lexWord (c :: cs)
      else if isDigit c then lexNumber (c :: cs)
      else lexOp c cs

def lexerNextRaw (cs : List Char) : Token × List Char := lexRaw (skipBlank .code cs)

/-- All tokens, with `prev` the kind of the last one.  Every token takes a byte, so
that the length of the text is fuel enough. -/
def lexFrom : Nat → TokenKind → List Char → List Token
  | 0, _, _ => []
  | n + 1, prev, cs =>
      let (tok, rest) := lexerNextRaw cs
      if tok.kind = .eof then []
      else if tok.kind = .newline then
        if tokenEndsStmt prev then { kind := .semicolon } :: lexFrom n .semicolon rest
        else lexFrom n prev rest
      else tok :: lexFrom n tok.kind rest

/-- `lexer_new` clears `prev_token`, and so its kind is the first one, which ends
a statement. -/
def lex (cs : List Char) : List Token := lexFrom (cs.length + 1) .intLit cs

/-! ## Every token takes a byte -/

theorem skipBlank_length_le (b : Blank) (cs : List Char) :
    (skipBlank b cs).length ≤ cs.length := by
  fun_induction skipBlank b cs <;> simp_all <;> omega

theorem length_dropWhile_le (p : Char → Bool) (cs : List Char) :
    (cs.dropWhile p).length ≤ cs.length :=
  (List.dropWhile_suffix p).length_le

theorem length_cstr_le (cs : List Char) : (cstr cs).length ≤ cs.length := by
  rw [cstr, String.length_ofList]
  exact (List.takeWhile_prefix _).length_le

/-- What the parts of a string weigh. -/
def partsWeight (parts : List (String × String)) : Nat :=
  (parts.map fun part => part.2.length + 1).sum

/-- What is read of an expression weighs on the token as soon as it has ended. -/
def StringMode.weight : StringMode → Nat
  | .lit _ => 0
  | .expr _ src _ _ => src.length + 1

theorem stringToken_weight_le (parts : List (String × String)) (nested : Bool) (buf : List Char)
    (diags : List String) : (stringToken parts nested buf diags).weight ≤ 1 + partsWeight parts := by
  unfold stringToken
  split
  · exact Nat.le_add_right 1 _
  · exact Nat.le_refl _

theorem partsWeight_concat (parts : List (String × String)) (l src : String) :
    partsWeight (parts ++ [(l, src)]) = partsWeight parts + (src.length + 1) := by
  simp [partsWeight]

@[simp] theorem errorToken_weight (msg : String) : (errorToken msg).weight = 1 := rfl

theorem lexString_weight (parts : List (String × String)) (nested : Bool) (mode : StringMode)
    (cs : List Char) :
    (lexString parts nested mode cs).1.weight + (lexString parts nested mode cs).2.length ≤
      1 + partsWeight parts + mode.weight + cs.length := by
  fun_induction lexString parts nested mode cs
  -- the expression ends here, and what it weighed is from now on a part's
  case case14 parts nested l src _ cs _ ih =>
    have := length_cstr_le src
    rw [partsWeight_concat] at ih
    simp only [StringMode.weight, List.length_cons] at ih ⊢
    omega
  case case1 parts nested buf =>
    exact Nat.le_trans (stringToken_weight_le parts nested buf _) (by omega)
  case case2 parts nested buf =>
    exact Nat.le_trans (stringToken_weight_le parts nested buf _) (by omega)
  case case3 parts nested buf cs =>
    have := stringToken_weight_le parts nested buf []
    simp only [List.length_cons]
    omega
  all_goals
    simp only [StringMode.weight, errorToken_weight, List.length_cons, List.length_append,
      List.length_nil] at *
    omega

theorem lexRawString_weight (cs : List Char) :
    (lexRawString cs).1.weight + (lexRawString cs).2.length ≤ 1 + cs.length := by
  have h := length_dropWhile_le (· != '\x60') cs
  unfold lexRawString scan
  simp only
  split
  · exact Nat.le_add_right 1 _
  · next heq =>
      rw [heq] at h
      simp only [List.length_cons] at h
      simp only [Token.weight]
      omega

theorem scanChar_length_le (cs : List Char) : (scanChar cs).2.length ≤ cs.length := by
  unfold scanChar
  split
  · simp only [List.length_cons]
    omega
  · exact Nat.le_succ _
  · exact Nat.le_refl _

theorem lexCharLit_weight (cs : List Char) :
    (lexCharLit cs).1.weight + (lexCharLit cs).2.length ≤ 1 + cs.length := by
  have h := scanChar_length_le cs
  unfold lexCharLit
  generalize scanChar cs = body at h ⊢
  obtain ⟨body, rest⟩ := body
  simp only at h ⊢
  split
  · simp only [List.length_cons] at h
    simp only [Token.weight]
    omega
  · simp only [Token.weight]
    omega

theorem lexOp_weight (c : Char) (cs : List Char) :
    (lexOp c cs).1.weight + (lexOp c cs).2.length ≤ 1 + cs.length := by
  unfold lexOp
  split <;> simp [Token.weight, errorToken] <;> omega

theorem scanFraction_length_le (cs : List Char) : (scanFraction cs).2.length ≤ cs.length := by
  unfold scanFraction
  split
  · next d cs =>
      have := length_dropWhile_le isDigitOr (d :: cs)
      split
      · simp only [scan, List.length_cons] at *
        omega
      · exact Nat.le_refl _
  · exact Nat.le_refl _

theorem scanExponent_length_le (cs : List Char) : (scanExponent cs).2.length ≤ cs.length := by
  have hdrop := length_dropWhile_le isDigit
  unfold scanExponent
  split
  · split
    · split
      · next cs =>
          have := hdrop cs
          simp only [scan, List.length_cons]
          omega
      · next cs =>
          have := hdrop cs
          simp only [scan, List.length_cons]
          omega
      · exact Nat.le_succ_of_le (hdrop _)
    · exact Nat.le_refl _
  · exact Nat.le_refl _

theorem length_scan_lt {p : Char → Bool} {c : Char} (hc : p c = true) (cs : List Char) :
    (scan p (c :: cs)).2.length < (c :: cs).length := by
  have := length_dropWhile_le p cs
  simp only [scan, List.dropWhile_cons, hc, if_true, List.length_cons]
  omega

theorem lexDecimal_weight {c : Char} (hc : isDigit c = true) (cs : List Char) :
    (lexDecimal (c :: cs)).1.weight + (lexDecimal (c :: cs)).2.length ≤ (c :: cs).length := by
  have hwhole := length_scan_lt (p := isDigitOr) (by rw [isDigitOr, hc]; rfl) cs
  unfold lexDecimal
  generalize scan isDigitOr (c :: cs) = whole at hwhole ⊢
  have hfraction := scanFraction_length_le whole.2
  have hexponent := scanExponent_length_le (scanFraction whole.2).2
  simp only
  split
  · simp only [Token.weight]
    omega
  · simp only [Token.weight]
    omega

theorem lexNumber_weight {c : Char} (hc : isDigit c = true) (cs : List Char) :
    (lexNumber (c :: cs)).1.weight + (lexNumber (c :: cs)).2.length ≤ (c :: cs).length := by
  unfold lexNumber
  split
  case h_7 => exact lexDecimal_weight hc cs
  all_goals
    next heq =>
      cases heq
      simp only [lexNumber.lexRadix, Token.weight, List.length_cons]
      have := length_dropWhile_le
      grind

theorem lexWord_weight {c : Char} (hc : isAlnum c = true) (cs : List Char) :
    (lexWord (c :: cs)).1.weight + (lexWord (c :: cs)).2.length ≤ (c :: cs).length := by
  have := length_scan_lt hc cs
  unfold lexWord
  simp only [Token.weight]
  omega

theorem lexRaw_weight {cs : List Char} (hcs : cs ≠ []) :
    (lexRaw cs).1.weight + (lexRaw cs).2.length ≤ cs.length := by
  unfold lexRaw
  split
  · exact absurd rfl hcs
  · simp only [Token.weight, List.length_cons]
    omega
  · next cs =>
      have := lexString_weight [] false (.lit []) cs
      simp only [partsWeight, StringMode.weight, List.map_nil, List.sum_nil,
        List.length_cons] at this ⊢
      omega
  · next cs =>
      have := lexRawString_weight cs
      simp only [List.length_cons]
      omega
  · next cs =>
      have := lexCharLit_weight cs
      simp only [List.length_cons]
      omega
  · next c cs _ _ _ _ =>
      split
      · next hc => exact lexWord_weight (by rw [isAlnum, hc]; rfl) cs
      · split
        · next hc => exact lexNumber_weight hc cs
        · have := lexOp_weight c cs
          simp only [List.length_cons]
          omega

/-- A token that is not the end weighs no more than the bytes it takes. -/
theorem lexerNextRaw_weight {cs : List Char} (h : (lexerNextRaw cs).1.kind ≠ .eof) :
    (lexerNextRaw cs).1.weight + (lexerNextRaw cs).2.length ≤ cs.length := by
  have hblank := skipBlank_length_le .code cs
  unfold lexerNextRaw at h ⊢
  cases hcs : skipBlank .code cs with
  | nil =>
      rw [hcs] at h
      exact absurd rfl h
  | cons c rest =>
      have := lexRaw_weight (List.cons_ne_nil c rest)
      rw [hcs] at hblank
      omega

def tokensWeight (ts : List Token) : Nat := (ts.map Token.weight).sum

theorem lexFrom_weight (n : Nat) (prev : TokenKind) (cs : List Char) :
    tokensWeight (lexFrom n prev cs) ≤ cs.length := by
  induction n generalizing prev cs with
  | zero => exact Nat.zero_le _
  | succ n ih =>
      have hraw := @lexerNextRaw_weight cs
      unfold lexFrom
      generalize lexerNextRaw cs = raw at hraw ⊢
      obtain ⟨tok, rest⟩ := raw
      simp only at hraw ⊢
      split
      · exact Nat.zero_le _
      · next hkind =>
          have hlen := hraw hkind
          have hpos := tok.weight_pos
          split
          · split
            · have := ih .semicolon rest
              simp only [tokensWeight, List.map_cons, List.sum_cons] at this ⊢
              simp only [Token.weight]
              omega
            · have := ih prev rest
              omega
          · have := ih tok.kind rest
            simp only [tokensWeight, List.map_cons, List.sum_cons] at this ⊢
            omega

/-- The tokens of a text weigh no more than the text is long. -/
theorem lex_weight (cs : List Char) : tokensWeight (lex cs) ≤ cs.length :=
  lexFrom_weight _ _ cs

end Limceron.Parse
