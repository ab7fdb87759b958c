/-
# `Limceron.Parse.Words` — words, numbers and signs at the front of a text

A word is read whole if no letter or digit stands behind it (`Apart`), and so are the digits of
a number, which a point would carry on as well.  The signs here begin no longer operator.
-/
import Limceron.Parse.Numbers
import Limceron.Parse.Streams

namespace Limceron.Parse

open Readers Readers.Reader

/-! ## Words and numbers -/

/-- A name that is not a keyword. -/
structure Word where
  chars : List Char
  head : ∀ c ∈ chars.head?, isAlpha c = true
  ne_nil : chars ≠ []
  alnum : ∀ c ∈ chars, isAlnum c = true
  plain : keywordLookup (String.ofList chars) = .ident

theorem Lexeme.space {cs rest : List Char} {tok : Token} (h : Lexeme cs tok rest) :
    Lexeme (' ' :: cs) tok rest :=
  ⟨h.next, h.silent, h.plain⟩

theorem skipBlank_alnum {c : Char} (hc : isAlnum c = true) (cs : List Char) :
    skipBlank .code (c :: cs) = c :: cs := by
  have hslash : c ≠ '/' := by
    rintro rfl
    cases hc
  have hblank : (c == ' ' || c == '\t' || c == '\r') = false := by
    simp only [Bool.or_eq_false_iff, beq_eq_false_iff_ne]
    refine ⟨⟨?_, ?_⟩, ?_⟩
    all_goals
      rintro rfl
      cases hc
  rw [skipBlank]
  · rw [hblank]
    rfl
  · rintro _ rfl
    exact absurd rfl hslash
  · rintro _ rfl
    exact absurd rfl hslash

/-- A letter or a digit begins a word or a number. -/
theorem lexRaw_alnum {c : Char} (hc : isAlnum c = true) (cs : List Char) :
    lexRaw (c :: cs) = if isAlpha c then lexWord (c :: cs) else lexNumber (c :: cs) := by
  unfold lexRaw
  split
  · next heq => cases heq
  · next heq =>
      cases heq
      cases hc
  · next heq =>
      cases heq
      cases hc
  · next heq =>
      cases heq
      cases hc
  · next heq =>
      cases heq
      cases hc
  · next heq =>
      cases heq
      rw [isAlnum] at hc
      cases halpha : isAlpha c with
      | true => rfl
      | false =>
          rw [halpha, Bool.false_or] at hc
          simp only [hc, if_true]

/-- The text does not go on with a letter or a digit. -/
def Apart (rest : List Char) : Prop := ∀ c ∈ rest.head?, isAlnum c = false

theorem scan_append {p : Char → Bool} {cs rest : List Char} (hcs : ∀ c ∈ cs, p c = true)
    (hrest : ∀ c ∈ rest.head?, p c = false) : scan p (cs ++ rest) = (cs, rest) := by
  have htake : rest.takeWhile p = [] := by
    cases rest with
    | nil => rfl
    | cons c rest => exact List.takeWhile_cons_of_neg (by rw [hrest c rfl]; decide)
  have hdrop : rest.dropWhile p = rest := by
    cases rest with
    | nil => rfl
    | cons c rest => exact List.dropWhile_cons_of_neg (by rw [hrest c rfl]; decide)
  rw [scan, List.takeWhile_append_of_pos hcs, List.dropWhile_append_of_pos hcs, htake, hdrop,
    List.append_nil]

/-- A word, which may be a keyword. -/
theorem lexerNextRaw_word {c : Char} {cs rest : List Char} (hc : isAlpha c = true)
    (hcs : ∀ d ∈ c :: cs, isAlnum d = true) (h : Apart rest) :
    lexerNextRaw (c :: cs ++ rest) =
      ({ kind := keywordLookup (String.ofList (c :: cs)), value := .str (String.ofList (c :: cs)) },
        rest) := by
  have halnum : isAlnum c = true := hcs c List.mem_cons_self
  have hscan := scan_append hcs h
  rw [List.cons_append] at hscan ⊢
  rw [lexerNextRaw, skipBlank_alnum halnum, lexRaw_alnum halnum, if_pos hc, lexWord, hscan]

def Word.token (w : Word) : Token := nameToken (String.ofList w.chars)

theorem Word.lexeme (w : Word) {rest : List Char} (h : Apart rest) :
    Lexeme (w.chars ++ rest) w.token rest := by
  refine ⟨?_, rfl, TokenKind.noConfusion, TokenKind.noConfusion, TokenKind.noConfusion⟩
  obtain ⟨chars, hhead, hne, halnum, hplain⟩ := w
  obtain ⟨c, cs, rfl⟩ := List.exists_cons_of_ne_nil hne
  rw [lexerNextRaw_word (hhead c rfl) halnum h, hplain]
  rfl

theorem isAlpha_of_isDigit {c : Char} (h : isDigit c = true) : isAlpha c = false := by
  simp only [isDigit, isAlpha, inRange_eq, beq_eq_toNat, Char.reduceToNat, decide_eq_true_eq,
    Bool.or_eq_false_iff, decide_eq_false_iff_not] at h ⊢
  omega

theorem isDigit_toDigits (n : Nat) : ∀ c ∈ Nat.toDigits 10 n, isDigit c = true :=
  fun _ hc => Nat.isDigit_of_mem_toDigits (by decide) (by decide) hc

theorem numeral_eq_ofDigitChars {ds : List Char} (hds : ∀ c ∈ ds, isDigit c = true) (v : Nat) :
    ds.foldl (fun v c => v * 10 + digitValue c) v = Nat.ofDigitChars 10 ds v := by
  induction ds generalizing v with
  | nil => exact Nat.ofDigitChars_nil.symm
  | cons d ds ih =>
      have hd : digitValue d = d.toNat - '0'.toNat := by
        rw [digitValue, if_pos (hds d List.mem_cons_self)]
      rw [List.foldl_cons, Nat.ofDigitChars_cons, hd, Nat.mul_comm,
        ih (fun c hc => hds c (List.mem_cons_of_mem d hc))]

theorem isDigitOr_of_not_alnum {c : Char} (h : isAlnum c = false) : isDigitOr c = false := by
  simp only [isAlnum, isAlpha, isDigitOr, Bool.or_eq_false_iff] at h ⊢
  exact ⟨h.2, h.1.2⟩

/-- Digits, and nothing that goes on with them, are a decimal number. -/
theorem lexNumber_digits {ds rest : List Char} (hds : ∀ c ∈ ds, isDigit c = true) (hne : ds ≠ [])
    (h : Apart rest) : lexNumber (ds ++ rest) = lexDecimal (ds ++ rest) := by
  have hsecond : ∀ x c cs, isDigit c = false → isAlnum c = true → ds ++ rest ≠ x :: c :: cs := by
    intro x c cs hc halnum heq
    obtain ⟨d, ds, rfl⟩ := List.exists_cons_of_ne_nil hne
    cases ds with
    | nil =>
        obtain rfl : rest = c :: cs := (List.cons.inj heq).2
        rw [h c rfl] at halnum
        cases halnum
    | cons e ds =>
        cases heq
        rw [hds c (List.mem_cons_of_mem _ List.mem_cons_self)] at hc
        cases hc
  unfold lexNumber
  split
  case h_7 => rfl
  all_goals
    next heq => exact absurd heq (hsecond _ _ _ rfl rfl)

/-- Digits, and nothing that goes on with them, are not the beginning of another number. -/
theorem scanFraction_apart {rest : List Char} (h : rest.head? ≠ some '.') :
    scanFraction rest = ([], rest) := by
  unfold scanFraction
  split
  · exact absurd rfl h
  · rfl

theorem scanExponent_apart {rest : List Char} (h : Apart rest) :
    scanExponent rest = ([], rest) := by
  cases rest with
  | nil => rfl
  | cons c rest =>
      have hc : (c == 'e' || c == 'E') = false := by
        rw [Bool.or_eq_false_iff, beq_eq_false_iff_ne, beq_eq_false_iff_ne]
        constructor
        all_goals
          rintro rfl
          cases h _ rfl
      unfold scanExponent
      simp only [hc, Bool.false_eq_true, if_false]

/-- The digits of a number. -/
theorem digits_lexeme (n : Fin 9223372036854775808) {rest : List Char} (h : Apart rest)
    (hdot : rest.head? ≠ some '.') :
    Lexeme (Nat.toDigits 10 n ++ rest) { kind := .intLit, value := .int (n : Nat) } rest := by
  have hdigits := isDigit_toDigits n
  have hor : ∀ c ∈ Nat.toDigits 10 n, isDigitOr c = true := fun c hc => by
    rw [isDigitOr, hdigits c hc, Bool.true_or]
  have hplain : withoutUnderscores (Nat.toDigits 10 n) = Nat.toDigits 10 n := by
    refine List.filter_eq_self.2 fun c hc => bne_iff_ne.2 ?_
    rintro rfl
    exact Nat.underscore_not_in_toDigits hc
  have hlength : (Nat.toDigits 10 n).length ≤ 127 :=
    ((Nat.length_toDigits_le_iff (by decide) (by decide)).2 (by omega : (n : Nat) < 10 ^ 127))
  have hvalue : strtoll 10 (Nat.toDigits 10 n) = ((n : Nat) : Int) := by
    have hread := strtoll_decimal hor
    have hnumeral : numeral 10 (Nat.toDigits 10 n) = n :=
      (numeral_eq_ofDigitChars hdigits 0).trans Nat.ofDigitChars_ten_toDigits
    rwa [hplain, hnumeral, clampInt64_of_lt n.isLt] at hread
  have hdecimal : lexDecimal (Nat.toDigits 10 n ++ rest) =
      ({ kind := .intLit, value := .int (n : Nat) }, rest) := by
    have hscan : scan isDigitOr (Nat.toDigits 10 n ++ rest) = (Nat.toDigits 10 n, rest) :=
      scan_append hor fun c hc => isDigitOr_of_not_alnum (h c hc)
    unfold lexDecimal
    simp only [hscan, scanFraction_apart hdot, scanExponent_apart h, List.append_nil,
      List.take_of_length_le hlength, List.isEmpty_nil, Bool.and_self, if_true]
    rw [← hvalue]
    exact congrArg (fun ds => (({ kind := .intLit, value := .int (strtoll 10 ds) } : Token), rest))
      hplain
  refine ⟨?_, rfl, TokenKind.noConfusion, TokenKind.noConfusion, TokenKind.noConfusion⟩
  have hnumber := (lexNumber_digits hdigits Nat.toDigits_ne_nil h).trans hdecimal
  obtain ⟨d, ds, hds⟩ := List.exists_cons_of_ne_nil (Nat.toDigits_ne_nil (b := 10) (n := n))
  have hd : isDigit d = true := hdigits d (by rw [hds]; exact List.mem_cons_self)
  have halnum : isAlnum d = true := by rw [isAlnum, hd, Bool.or_true]
  have halpha : isAlpha d = false := isAlpha_of_isDigit hd
  rw [hds, List.cons_append] at hnumber ⊢
  rw [lexerNextRaw, skipBlank_alnum halnum, lexRaw_alnum halnum, halpha]
  exact hnumber

theorem apart_space (rest : List Char) : Apart (' ' :: rest) := by
  rintro _ ⟨⟩
  rfl

/-! ## Signs and keywords -/

section Signs

variable (rest : List Char)

theorem comma_lexeme : Lexeme (',' :: rest) (sign .comma) rest := ⟨rfl, rfl, by decide⟩
theorem rparen_lexeme : Lexeme (')' :: rest) (sign .rparen) rest := ⟨rfl, rfl, by decide⟩
theorem rbracket_lexeme : Lexeme (']' :: rest) (sign .rbracket) rest := ⟨rfl, rfl, by decide⟩
theorem lparen_lexeme : Lexeme ('(' :: rest) (sign .lparen) rest := ⟨rfl, rfl, by decide⟩
theorem lbracket_lexeme : Lexeme ('[' :: rest) (sign .lbracket) rest := ⟨rfl, rfl, by decide⟩

end Signs

theorem keyword_lexeme (c : Char) (cs : List Char) {rest : List Char} {k : TokenKind}
    (hc : isAlpha c = true) (hcs : (c :: cs).all isAlnum = true)
    (hk : keywordLookup (String.ofList (c :: cs)) = k)
    (hplain : k ≠ .eof ∧ k ≠ .newline ∧ k ≠ .error) (h : Apart rest) :
    Lexeme (c :: cs ++ rest) { kind := k, value := .str (String.ofList (c :: cs)) } rest := by
  subst hk
  exact ⟨lexerNextRaw_word hc (List.all_eq_true.1 hcs) h, rfl, hplain⟩

/-- A keyword with its text. -/
def keyword (k : TokenKind) : Token := { kind := k, value := .str (tokenKindName k) }

/-- A token that is not this name. -/
theorem Lexeme.reads_declineText {cs rest : List Char} {tok : Token} {name : String}
    (h : Lexeme cs tok rest) (hne : tok.kind ≠ .ident ∨ tok.strVal ≠ some name) :
    Reads (acceptText name) cs false cs := by
  have hfalse : (tok.kind == .ident && tok.strVal == some name) = false := by
    rw [Bool.and_eq_false_iff, beq_eq_false_iff_ne, beq_eq_false_iff_ne]
    exact hne
  have hcheck : Reads (checkText name) cs false cs := by
    intro ts s hts hs
    obtain ⟨us, rfl, hus⟩ := h.stream hts
    have hends : Ends (checkText name) (tok :: us) s (tok.kind == .ident && tok.strVal == some name)
      (tok :: us) s := ends_act _
    rw [hfalse] at hends
    exact ⟨tok :: us, s, hends, hts, hs⟩
  exact hcheck.bind (reads_pure false cs)

end Limceron.Parse
